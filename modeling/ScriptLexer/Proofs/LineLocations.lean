import ScriptLexer.LineIndex.Lemmas

namespace ScriptLexer

namespace Bytes

def columnFrom (column : Nat) (bs : Bytes) : Nat :=
  bs.foldl (fun n b => if b = Byte.lineFeed then 0 else n + 1) column

theorem columnFrom_cons (column : Nat) (b : UInt8) (bs : Bytes) :
    columnFrom column (b :: bs) =
      columnFrom (if b = Byte.lineFeed then 0 else column + 1) bs := rfl

theorem columnFrom_append (column : Nat) (u v : Bytes) :
    columnFrom column (u ++ v) = columnFrom (columnFrom column u) v :=
  List.foldl_append

theorem columnFrom_of_not_mem {bs : Bytes} (column : Nat) (h : Byte.lineFeed ∉ bs) :
    columnFrom column bs = column + bs.length := by
  induction bs generalizing column with
  | nil => rfl
  | cons b bs ih =>
    have hb : b ≠ Byte.lineFeed := fun he => h (by simp [he])
    rw [columnFrom_cons, if_neg hb, ih _ (fun hm => h (List.mem_cons_of_mem _ hm)), List.length_cons]
    omega

theorem columnFrom_of_mem {bs : Bytes} (m n : Nat) (h : Byte.lineFeed ∈ bs) :
    columnFrom m bs = columnFrom n bs := by
  induction bs generalizing m n with
  | nil => exact absurd h List.not_mem_nil
  | cons b bs ih =>
    by_cases hb : b = Byte.lineFeed
    · rw [columnFrom_cons, columnFrom_cons, if_pos hb, if_pos hb]
    · have hm := (List.mem_cons.mp h).resolve_left (Ne.symm hb)
      rw [columnFrom_cons, columnFrom_cons, ih _ _ hm]

theorem columnFrom_eq (column : Nat) (bs : Bytes) :
    columnFrom column bs =
      if bs.count Byte.lineFeed = 0 then column + columnFrom 0 bs else columnFrom 0 bs := by
  split
  · next h =>
    have hm := List.count_eq_zero.mp h
    rw [columnFrom_of_not_mem column hm, columnFrom_of_not_mem 0 hm, Nat.zero_add]
  · next h => exact columnFrom_of_mem column 0 (List.count_pos_iff.mp (Nat.pos_of_ne_zero h))

end Bytes

namespace LineIndex

open Bytes (columnFrom)

theorem start_add_column (bs : Bytes) {start base pos : Nat} (hs : start ≤ base)
    (hp : pos ≤ bs.length) :
    (start :: startsFrom (base + 1) bs).toArray.getD ((bs.take pos).count Byte.lineFeed) 0 +
      columnFrom (base - start) (bs.take pos) = base + pos := by
  induction bs generalizing start base pos with
  | nil =>
    obtain rfl := Nat.le_zero.mp hp
    simp [columnFrom]
    omega
  | cons b bs ih =>
    cases pos with
    | zero =>
      simp [columnFrom]
      omega
    | succ pos =>
      rw [List.length_cons] at hp
      have hlen : pos ≤ bs.length := by omega
      rw [startsFrom_cons, List.take_succ_cons, Bytes.columnFrom_cons]
      by_cases hb : b = Byte.lineFeed
      · have hi := ih (Nat.le_refl (base + 1)) hlen
        rw [Nat.sub_self] at hi
        simp [hb] at hi ⊢
        omega
      · have hi := ih (Nat.le_succ_of_le hs) hlen
        rw [Nat.succ_sub hs] at hi
        simp [hb] at hi ⊢
        omega

theorem locate_ofText {text : Text} {pos : Nat} (h : pos ≤ text.size) :
    (ofText text).locate pos =
      ⟨1 + (text.bytes.take pos).count Byte.lineFeed, columnFrom 0 (text.bytes.take pos) + 1⟩ := by
  rw [← Text.length_bytes] at h
  have hs : (ofText text).starts.getD ((text.bytes.take pos).count Byte.lineFeed) 0 +
      columnFrom 0 (text.bytes.take pos) = 0 + pos :=
    start_add_column text.bytes (Nat.le_refl 0) h
  have hline : (ofText text).lineOf pos - 1 = (text.bytes.take pos).count Byte.lineFeed := by
    rw [lineOf_ofText]
    omega
  rw [locate, hline, lineOf_ofText, Location.mk.injEq]
  exact ⟨rfl, by omega⟩

theorem slice_split {text : Text} {a b : Nat} (h : a ≤ b) :
    text.bytes.take b = text.bytes.take a ++ text.slice a b := by
  rw [Text.slice_eq, ← List.take_add, Nat.add_sub_cancel' h]

theorem locate_later {text : Text} {a b : Nat} (h : a ≤ b) (hb : b ≤ text.size) :
    (ofText text).locate b =
      ⟨((ofText text).locate a).line + (text.slice a b).count Byte.lineFeed,
        columnFrom (((ofText text).locate a).column - 1) (text.slice a b) + 1⟩ := by
  rw [locate_ofText hb, locate_ofText (Nat.le_trans h hb), slice_split h, List.count_append,
    Bytes.columnFrom_append, Nat.add_assoc, Nat.add_sub_cancel]

theorem locate_pos (text : Text) {pos : Nat} (h : pos ≤ text.size) :
    0 < ((ofText text).locate pos).line ∧ 0 < ((ofText text).locate pos).column := by
  rw [locate_ofText h]
  exact ⟨Nat.add_pos_left Nat.one_pos _, Nat.succ_pos _⟩

theorem divides_lineOf (text : Text) (pos : Nat) :
    Divides (ofText text).starts pos ((ofText text).lineOf pos) ((ofText text).lineOf pos) :=
  divides_search (pairwise_starts_ofText text)
    ⟨Nat.zero_le _, Nat.le_refl _, fun i hi => absurd hi (Nat.not_lt_zero i), fun i h h' => by omega⟩

theorem lineStart?_le {text : Text} {line start pos : Nat}
    (h : (ofText text).lineStart? line = some start) (hl : line ≤ (ofText text).lineOf pos) :
    start ≤ pos := by
  cases line with
  | zero => cases h
  | succ line =>
    obtain ⟨hlt, hs⟩ := Array.getElem?_eq_some_iff.mp h
    have := (divides_lineOf text pos).2.2.1 line hl
    rwa [Array.getD, dif_pos hlt, Array.getInternal_eq_getElem, hs] at this

theorem mem_startsFrom {pos i : Nat} {bs : Bytes} (h : i ∈ startsFrom pos bs) :
    ∃ j, i = pos + j ∧ bs[j]? = some Byte.lineFeed := by
  induction bs generalizing pos with
  | nil => exact absurd h List.not_mem_nil
  | cons b bs ih =>
    rw [startsFrom_cons, List.mem_append] at h
    rcases h with h | h
    · split at h
      · next hb => exact ⟨0, List.mem_singleton.mp h, congrArg some hb⟩
      · exact absurd h List.not_mem_nil
    · obtain ⟨j, rfl, hj⟩ := ih h
      exact ⟨j + 1, by omega, hj⟩

theorem lineStart?_cases {text : Text} {line start : Nat}
    (h : (ofText text).lineStart? line = some start) :
    start = 0 ∨ ∃ j, start = j + 1 ∧ text.bytes[j]? = some Byte.lineFeed := by
  cases line with
  | zero => cases h
  | succ line =>
    have hm : start ∈ 0 :: startsFrom 1 text.bytes := by
      have hs : (0 :: startsFrom 1 text.bytes)[line]? = some start := by
        rw [← h, lineStart?, ofText, List.getElem?_toArray]
      exact List.mem_of_getElem? hs
    rcases List.mem_cons.mp hm with hz | hm
    · exact Or.inl hz
    · obtain ⟨j, hj, hb⟩ := mem_startsFrom hm
      exact Or.inr ⟨j, by omega, hb⟩

end LineIndex

end ScriptLexer
