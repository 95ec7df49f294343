import Mathlib.Data.Nat.Basic
import Mathlib.Order.Bounds.Defs
import Mathlib.Order.Monotone.Defs
import ScriptLexer.Proofs.TextCharacters

namespace ScriptLexer

namespace Text

theorem le_floorFrom {text : Text} {b n : Nat} (hb : text.isBoundary b) (h : b ≤ n) :
    b ≤ text.floorFrom n := by
  induction n with
  | zero => rwa [floorFrom]
  | succ n ih =>
    rw [floorFrom]
    split
    · exact h
    · next hn =>
      have hne : b ≠ n + 1 := by
        rintro rfl
        exact hn hb
      exact ih (by omega)

theorem le_floor {text : Text} {b pos : Nat} (hb : text.isBoundary b) (h : b ≤ pos) :
    b ≤ text.floor pos :=
  le_floorFrom hb (Nat.le_min.mpr ⟨h, le_size_of_isBoundary hb⟩)

theorem ceilFrom_le {text : Text} {b pos : Nat} (hb : text.isBoundary b) (h : pos ≤ b) :
    text.ceilFrom pos ≤ b := by
  fun_induction ceilFrom text pos with
  | case1 pos hp => exact h
  | case2 pos hp ih =>
    have hne : pos ≠ b := by
      rintro rfl
      exact hp (Or.inl hb)
    exact ih (by omega)

theorem ceil_le {text : Text} {b pos : Nat} (hb : text.isBoundary b) (h : pos ≤ b) :
    text.ceil pos ≤ b :=
  ceilFrom_le hb (Nat.le_trans (Nat.min_le_left _ _) h)

theorem isGreatest_floor (text : Text) (pos : Nat) :
    IsGreatest {b | text.isBoundary b ∧ b ≤ pos} (text.floor pos) :=
  ⟨⟨isBoundary_floor text pos, floor_le text pos⟩, fun _ h => le_floor h.1 h.2⟩

theorem floor_eq {text : Text} {pos : Nat} (h : text.isBoundary pos) : text.floor pos = pos :=
  Nat.le_antisymm (floor_le text pos) (le_floor h (Nat.le_refl pos))

theorem floor_of_size_le {text : Text} {pos : Nat} (h : text.size ≤ pos) :
    text.floor pos = text.size :=
  Nat.le_antisymm (le_size_of_isBoundary (isBoundary_floor text pos))
    (le_floor (isBoundary_size text) h)

theorem ceil_eq {text : Text} {pos : Nat} (h : text.isBoundary pos) : text.ceil pos = pos := by
  have hle := le_ceil text pos
  rw [Nat.min_eq_left (le_size_of_isBoundary h)] at hle
  exact Nat.le_antisymm (ceil_le h (Nat.le_refl pos)) hle

theorem lt_size_of_not_isBoundary {text : Text} {pos : Nat} (h : pos ≤ text.size)
    (hb : ¬ text.isBoundary pos) : pos < text.size := by
  rcases Nat.lt_or_eq_of_le h with hlt | rfl
  · exact hlt
  · exact absurd (isBoundary_size text) hb

theorem isBoundary_of_head {text : Text} {pos : Nat} (h : pos ≤ text.size)
    (hh : ∀ b ∈ (text.bytes.drop pos).head?, ¬ Byte.isContinuation b) : text.isBoundary pos := by
  by_cases hp : pos < text.size
  · have hb : ¬ Byte.isContinuation text[pos] := by
      apply hh
      rw [List.head?_drop, List.getElem?_eq_getElem (by rwa [length_bytes])]
      rfl
    simp [isBoundary, hp, hb]
  · have he : pos = text.size := by omega
    rw [he]
    exact isBoundary_size text

theorem head_of_isBoundary {text : Text} {pos : Nat} (h : text.isBoundary pos) (hp : 0 < pos) :
    ∀ b ∈ (text.bytes.drop pos).head?, ¬ Byte.isContinuation b := by
  intro b hb
  rw [List.head?_drop] at hb
  obtain ⟨hlt, rfl⟩ := List.getElem?_eq_some_iff.mp hb
  rw [length_bytes] at hlt
  have hn : pos ≠ 0 := Nat.ne_of_gt hp
  have hc : ¬ Byte.isContinuation text[pos] := by simpa [isBoundary, hlt, hn] using h
  exact hc

theorem isBoundary_of_ascii {text : Text} {pos : Nat} {b : UInt8}
    (h : text.bytes[pos]? = some b) (hb : b < 0x80) : text.isBoundary pos := by
  have hlt := (List.getElem?_eq_some_iff.mp h).1
  rw [length_bytes] at hlt
  apply isBoundary_of_head (Nat.le_of_lt hlt)
  rw [List.head?_drop, h]
  rintro c hc
  obtain rfl := Option.some.inj hc
  exact Bytes.not_isContinuation_of_ascii hb

variable {s : String}

theorem bytes_ofChars (s : String) : bytes s.toUTF8 = Bytes.ofChars s.toList :=
  Bytes.ofString_eq_ofChars s

theorem bytes_cut {before behind : List Char} (hs : s.toList = before ++ behind) :
    bytes s.toUTF8 = Bytes.ofChars before ++ Bytes.ofChars behind := by
  rw [bytes_ofChars, hs, Bytes.ofChars_append]

theorem isBoundary_iff (pos : Nat) :
    isBoundary s.toUTF8 pos ↔
      ∃ before behind, s.toList = before ++ behind ∧ (Bytes.ofChars before).length = pos := by
  have hsize : (bytes s.toUTF8).length = s.toUTF8.size := length_bytes _
  constructor
  · intro h
    have hle := le_size_of_isBoundary h
    rcases Nat.eq_zero_or_pos pos with rfl | hp
    · exact ⟨[], s.toList, rfl, rfl⟩
    have hcut : Bytes.ofChars s.toList =
        (bytes s.toUTF8).take pos ++ (bytes s.toUTF8).drop pos := by
      rw [List.take_append_drop, bytes_ofChars]
    obtain ⟨before, behind, hs, hb, -⟩ := Bytes.ofChars_cut hcut (head_of_isBoundary h hp)
    refine ⟨before, behind, hs, ?_⟩
    rw [← hb, List.length_take, hsize, Nat.min_eq_left hle]
  · rintro ⟨before, behind, hs, rfl⟩
    apply isBoundary_of_head
    · rw [← hsize, bytes_cut hs, List.length_append]
      exact Nat.le_add_right _ _
    · rw [bytes_cut hs, List.drop_left]
      exact fun b hh => Bytes.not_isContinuation_of_head hh

theorem length_ofChars_le {front cs : List Char} (h : front <+: cs) :
    (Bytes.ofChars front).length ≤ (Bytes.ofChars cs).length := by
  obtain ⟨rest, rfl⟩ := h
  rw [Bytes.ofChars_append, List.length_append]
  exact Nat.le_add_right _ _

theorem isBoundary_after_ascii {pos : Nat} {b : UInt8} (h : (bytes s.toUTF8)[pos]? = some b)
    (hb : b < 0x80) : isBoundary s.toUTF8 (pos + 1) := by
  obtain ⟨hlt, hget⟩ := List.getElem?_eq_some_iff.mp h
  have hcut : Bytes.ofString s =
      (bytes s.toUTF8).take pos ++ b :: (bytes s.toUTF8).drop (pos + 1) := by
    rw [← hget, ← List.drop_eq_getElem_cons hlt, List.take_append_drop, bytes_toUTF8]
  obtain ⟨cs, hcs⟩ := Bytes.IsText.cut_after (hcut ▸ Bytes.isText_ofString s) hb
  rw [length_bytes] at hlt
  apply isBoundary_of_head hlt
  rw [hcs]
  exact fun c hc => Bytes.not_isContinuation_of_head hc

theorem exists_character (cs : List Char) {pos : Nat} (h : pos < (Bytes.ofChars cs).length) :
    ∃ before c behind, cs = before ++ c :: behind ∧ (Bytes.ofChars before).length ≤ pos ∧
      pos < (Bytes.ofChars (before ++ [c])).length := by
  induction cs generalizing pos with
  | nil => simp at h
  | cons c cs ih =>
    rw [Bytes.ofChars_cons, List.length_append] at h
    by_cases hp : pos < (String.utf8EncodeChar c).length
    · exact ⟨[], c, cs, rfl, Nat.zero_le _, by simpa using hp⟩
    · have hpos : pos - (String.utf8EncodeChar c).length < (Bytes.ofChars cs).length := by omega
      obtain ⟨before, d, behind, rfl, hle, hlt⟩ := ih hpos
      refine ⟨c :: before, d, behind, rfl, ?_, ?_⟩
      · rw [Bytes.ofChars_cons, List.length_append]
        omega
      · rw [List.cons_append, Bytes.ofChars_cons, List.length_append]
        omega

theorem not_isBoundary_inside {before behind : List Char} {c : Char} {pos : Nat}
    (hs : s.toList = before ++ c :: behind) (h : (Bytes.ofChars before).length < pos)
    (hlt : pos < (Bytes.ofChars (before ++ [c])).length) : ¬ isBoundary s.toUTF8 pos := by
  intro hb
  obtain ⟨front, rest, hfront, rfl⟩ := (isBoundary_iff pos).mp hb
  have hprefix : before <+: s.toList := ⟨c :: behind, hs.symm⟩
  have hnext : before ++ [c] <+: s.toList := ⟨behind, by simpa using hs.symm⟩
  have hcut : front <+: s.toList := ⟨rest, hfront.symm⟩
  rcases Nat.lt_or_ge before.length front.length with hl | hl
  · have hlength : (before ++ [c]).length ≤ front.length := by
      rw [List.length_append]
      exact hl
    have := length_ofChars_le (List.prefix_of_prefix_length_le hnext hcut hlength)
    omega
  · have := length_ofChars_le (List.prefix_of_prefix_length_le hcut hprefix hl)
    omega

theorem exists_character_around {pos : Nat} (h : pos < s.toUTF8.size) :
    ∃ before c behind, s.toList = before ++ c :: behind ∧
      isBoundary s.toUTF8 (Bytes.ofChars before).length ∧
      isBoundary s.toUTF8 (Bytes.ofChars (before ++ [c])).length ∧
      (Bytes.ofChars before).length ≤ pos ∧ pos < (Bytes.ofChars (before ++ [c])).length ∧
      (Bytes.ofChars (before ++ [c])).length ≤ (Bytes.ofChars before).length + 4 := by
  rw [← length_bytes, bytes_ofChars] at h
  obtain ⟨before, c, behind, hs, hle, hlt⟩ := exists_character s.toList h
  refine ⟨before, c, behind, hs, (isBoundary_iff _).mpr ⟨before, c :: behind, hs, rfl⟩,
    (isBoundary_iff _).mpr ⟨before ++ [c], behind, by simpa using hs, rfl⟩, hle, hlt, ?_⟩
  have hc : (String.utf8EncodeChar c).length ≤ 4 := by
    rw [String.length_utf8EncodeChar]
    exact c.utf8Size_le_four
  rw [Bytes.ofChars_append, List.length_append, Bytes.ofChars_cons, Bytes.ofChars_nil,
    List.append_nil]
  omega

theorem exists_boundaries_around {pos : Nat} (h : pos < s.toUTF8.size) :
    ∃ a b, isBoundary s.toUTF8 a ∧ isBoundary s.toUTF8 b ∧ a ≤ pos ∧ pos < b ∧ b ≤ a + 4 := by
  obtain ⟨before, c, -, -, ha, hb, hle, hlt, hfour⟩ := exists_character_around h
  exact ⟨_, _, ha, hb, hle, hlt, hfour⟩

theorem le_floor_add_three {pos : Nat} (h : pos ≤ s.toUTF8.size) :
    pos ≤ floor s.toUTF8 pos + 3 := by
  rcases Nat.lt_or_eq_of_le h with hlt | rfl
  · obtain ⟨a, b, ha, -, hle, hpb, hab⟩ := exists_boundaries_around hlt
    have := le_floor ha hle
    omega
  · rw [floor_eq (isBoundary_size _)]
    exact Nat.le_add_right _ _

theorem ceil_le_add_three {pos : Nat} (h : pos ≤ s.toUTF8.size) : ceil s.toUTF8 pos ≤ pos + 3 := by
  by_cases hp : isBoundary s.toUTF8 pos
  · exact Nat.le_trans (ceil_le hp (Nat.le_refl _)) (Nat.le_add_right _ _)
  · obtain ⟨a, b, ha, hb, hle, hpb, hab⟩ :=
      exists_boundaries_around (lt_size_of_not_isBoundary h hp)
    have hna : a ≠ pos := by
      rintro rfl
      exact hp ha
    have := ceil_le hb (Nat.le_of_lt hpb)
    omega

def boundaries (s : String) : Set Nat :=
  {b | ∃ before behind, s.toList = before ++ behind ∧ (Bytes.ofChars before).length = b}

structure Nearest (s : String) (pos below above : Nat) : Prop where
  greatest : IsGreatest {b | b ∈ boundaries s ∧ b ≤ pos} below
  least : IsLeast {b | b ∈ boundaries s ∧ pos ≤ b} above
  below_near : pos ≤ below + 3
  above_near : above ≤ pos + 3
  above_le : above ≤ s.toUTF8.size
  below_eq_iff : below = pos ↔ pos ∈ boundaries s
  above_eq_iff : above = pos ↔ pos ∈ boundaries s
  inside : pos ∈ boundaries s ∨ ∃ before c behind, s.toList = before ++ c :: behind ∧
    below = (Bytes.ofChars before).length ∧ below < pos ∧
    above = (Bytes.ofChars (before ++ [c])).length ∧ pos < above

theorem floor_min (text : Text) (pos : Nat) : text.floor (min pos text.size) = text.floor pos := by
  rw [floor, floor, Nat.min_assoc, Nat.min_self]

theorem ceil_min (text : Text) (pos : Nat) : text.ceil (min pos text.size) = text.ceil pos := by
  rw [ceil, ceil, Nat.min_assoc, Nat.min_self]

theorem floor_eq_iff {text : Text} {pos : Nat} : text.floor pos = pos ↔ text.isBoundary pos := by
  constructor
  · intro h
    exact h ▸ isBoundary_floor text pos
  · exact floor_eq

theorem ceil_eq_iff {text : Text} {pos : Nat} : text.ceil pos = pos ↔ text.isBoundary pos := by
  constructor
  · intro h
    exact h ▸ isBoundary_ceil text pos
  · exact ceil_eq

theorem isLeast_ceil {text : Text} {pos : Nat} (h : pos ≤ text.size) :
    IsLeast {b | text.isBoundary b ∧ pos ≤ b} (text.ceil pos) := by
  have hle := le_ceil text pos
  rw [Nat.min_eq_left h] at hle
  exact ⟨⟨isBoundary_ceil text pos, hle⟩, fun _ hb => ceil_le hb.1 hb.2⟩

theorem floor_mono (text : Text) : Monotone text.floor := by
  intro a b h
  exact le_floor (isBoundary_floor text a) (Nat.le_trans (floor_le text a) h)

theorem ceil_mono (text : Text) : Monotone text.ceil := by
  intro a b h
  have hmin : min a text.size ≤ min b text.size := by omega
  exact ceilFrom_le (isBoundary_ceil text b) (Nat.le_trans hmin (le_ceil text b))

theorem round_inside {before behind : List Char} {c : Char} {pos : Nat}
    (hs : s.toList = before ++ c :: behind) (hlt : (Bytes.ofChars before).length < pos)
    (hpos : pos < (Bytes.ofChars (before ++ [c])).length) :
    floor s.toUTF8 pos = (Bytes.ofChars before).length ∧
      ceil s.toUTF8 pos = (Bytes.ofChars (before ++ [c])).length := by
  have hbelow : isBoundary s.toUTF8 (Bytes.ofChars before).length :=
    (isBoundary_iff _).mpr ⟨before, c :: behind, hs, rfl⟩
  have habove : isBoundary s.toUTF8 (Bytes.ofChars (before ++ [c])).length :=
    (isBoundary_iff _).mpr ⟨before ++ [c], behind, by simpa using hs, rfl⟩
  have hsize := le_size_of_isBoundary habove
  have hfloor := floor_le s.toUTF8 pos
  have hceil := (isLeast_ceil (show pos ≤ s.toUTF8.size by omega)).1.2
  constructor
  · apply Nat.le_antisymm _ (le_floor hbelow (Nat.le_of_lt hlt))
    apply Nat.le_of_not_lt
    intro h
    exact not_isBoundary_inside hs h (by omega) (isBoundary_floor _ _)
  · apply Nat.le_antisymm (ceil_le habove (Nat.le_of_lt hpos))
    apply Nat.le_of_not_lt
    intro h
    exact not_isBoundary_inside hs (by omega) h (isBoundary_ceil _ _)

theorem inside_cases {pos : Nat} (h : pos ≤ s.toUTF8.size) :
    isBoundary s.toUTF8 pos ∨ ∃ before c behind, s.toList = before ++ c :: behind ∧
      (Bytes.ofChars before).length < pos ∧ pos < (Bytes.ofChars (before ++ [c])).length := by
  by_cases hb : isBoundary s.toUTF8 pos
  · exact Or.inl hb
  · obtain ⟨before, c, behind, hs, hbefore, -, hle, hlt, -⟩ :=
      exists_character_around (lt_size_of_not_isBoundary h hb)
    have hne : (Bytes.ofChars before).length ≠ pos := by
      rintro rfl
      exact hb hbefore
    exact Or.inr ⟨before, c, behind, hs, by omega, hlt⟩

theorem nearest_round {pos : Nat} (h : pos ≤ s.toUTF8.size) :
    Nearest s pos (floor s.toUTF8 pos) (ceil s.toUTF8 pos) := by
  have hmem (b : Nat) : b ∈ boundaries s ↔ isBoundary s.toUTF8 b := (isBoundary_iff b).symm
  constructor
  · simpa only [hmem] using isGreatest_floor s.toUTF8 pos
  · simpa only [hmem] using isLeast_ceil h
  · exact le_floor_add_three h
  · exact ceil_le_add_three h
  · exact le_size_of_isBoundary (isBoundary_ceil _ _)
  · rw [hmem]
    exact floor_eq_iff
  · rw [hmem]
    exact ceil_eq_iff
  · rw [hmem]
    rcases inside_cases h with hb | ⟨before, c, behind, hs, hlt, hpos⟩
    · exact Or.inl hb
    · obtain ⟨hfloor, hceil⟩ := round_inside hs hlt hpos
      exact Or.inr ⟨before, c, behind, hs, hfloor, by omega, hceil, by omega⟩

theorem rounding_finds_nearest_boundaries (s : String) :
    (∀ pos, Nearest s (min pos s.toUTF8.size) (floor s.toUTF8 pos) (ceil s.toUTF8 pos)) ∧
      Monotone (floor s.toUTF8) ∧ Monotone (ceil s.toUTF8) := by
  refine ⟨fun pos => ?_, floor_mono _, ceil_mono _⟩
  have h := nearest_round (s := s) (Nat.min_le_right pos s.toUTF8.size)
  rwa [floor_min, ceil_min] at h

end Text

end ScriptLexer
