import ScriptLexer.Text

namespace ScriptLexer.Bytes

def ofChars (cs : List Char) : Bytes := cs.flatMap String.utf8EncodeChar

def IsText (bs : Bytes) : Prop := ∃ cs, bs = ofChars cs

@[simp]
theorem ofChars_nil : ofChars [] = [] := rfl

@[simp]
theorem ofChars_cons (c : Char) (cs : List Char) :
    ofChars (c :: cs) = String.utf8EncodeChar c ++ ofChars cs := rfl

theorem ofChars_append (cs ds : List Char) : ofChars (cs ++ ds) = ofChars cs ++ ofChars ds :=
  List.flatMap_append

theorem ofString_eq_ofChars (s : String) : ofString s = ofChars s.toList := by
  have h : s.toByteArray = s.toList.utf8Encode := by
    rw [← String.toByteArray_ofList, String.ofList_toList]
  simp [ofString, ofChars, h, List.utf8Encode]

theorem isText_ofString (s : String) : (ofString s).IsText := ⟨s.toList, ofString_eq_ofChars s⟩

theorem IsText.exists_ofString {bs : Bytes} (h : bs.IsText) : ∃ s, bs = ofString s := by
  obtain ⟨cs, rfl⟩ := h
  exact ⟨String.ofList cs, by rw [ofString_eq_ofChars, String.toList_ofList]⟩

theorem isText_nil : IsText [] := ⟨[], rfl⟩

theorem isContinuation_ofNat (n : Nat) :
    Byte.isContinuation (UInt8.ofNat (n % 0x40 + 0x80)) := by
  rw [Byte.isContinuation_iff, UInt8.toNat_ofNat']
  omega

theorem not_isContinuation_ofNat {n : Nat} (h : n < 0x80 ∨ 0xc0 ≤ n) (hn : n < 0x100) :
    ¬ Byte.isContinuation (UInt8.ofNat n) := by
  rw [Byte.isContinuation_iff, UInt8.toNat_ofNat']
  omega

theorem utf8EncodeChar_eq_cons (c : Char) :
    ∃ b tail, String.utf8EncodeChar c = b :: tail ∧ ¬ Byte.isContinuation b ∧
      ∀ t ∈ tail, Byte.isContinuation t := by
  have hv : c.val.toNat < 0x110000 := by
    rcases c.valid with h | h <;> omega
  simp only [String.utf8EncodeChar]
  split
  · refine ⟨_, _, rfl, not_isContinuation_ofNat (by omega) (by omega), ?_⟩
    exact fun t ht => absurd ht List.not_mem_nil
  split
  · refine ⟨_, _, rfl, not_isContinuation_ofNat (by omega) (by omega), ?_⟩
    simp only [List.forall_mem_singleton, isContinuation_ofNat]
  split
  · refine ⟨_, _, rfl, not_isContinuation_ofNat (by omega) (by omega), ?_⟩
    simp only [List.mem_cons, List.not_mem_nil, or_false, forall_eq_or_imp, forall_eq,
      isContinuation_ofNat, and_self]
  · refine ⟨_, _, rfl, not_isContinuation_ofNat (by omega) (by omega), ?_⟩
    simp only [List.mem_cons, List.not_mem_nil, or_false, forall_eq_or_imp, forall_eq,
      isContinuation_ofNat, and_self]

theorem not_ascii_ofNat {n : Nat} (h : 0xc0 ≤ n) (hn : n < 0x100) : ¬ UInt8.ofNat n < 0x80 := by
  simp only [UInt8.lt_iff_toNat_lt, UInt8.toNat_ofNat', UInt8.reduceToNat]
  omega

theorem utf8EncodeChar_ascii {c : Char} {b : UInt8} {tail : Bytes}
    (h : String.utf8EncodeChar c = b :: tail) (hb : b < 0x80) : tail = [] := by
  have hv : c.val.toNat < 0x110000 := by
    rcases c.valid with h | h <;> omega
  simp only [String.utf8EncodeChar] at h
  split at h
  · exact (List.cons.inj h).2.symm
  split at h
  · exact absurd ((List.cons.inj h).1 ▸ hb) (not_ascii_ofNat (by omega) (by omega))
  split at h
  · exact absurd ((List.cons.inj h).1 ▸ hb) (not_ascii_ofNat (by omega) (by omega))
  · exact absurd ((List.cons.inj h).1 ▸ hb) (not_ascii_ofNat (by omega) (by omega))

theorem utf8EncodeChar_eq_singleton {c : Char} {b : UInt8} {r t : Bytes}
    (h : String.utf8EncodeChar c ++ r = b :: t) (hb : b < 0x80) : String.utf8EncodeChar c = [b] := by
  obtain ⟨x, tail, hx, -, -⟩ := utf8EncodeChar_eq_cons c
  rw [hx, List.cons_append, List.cons.injEq] at h
  obtain ⟨rfl, -⟩ := h
  rw [hx, utf8EncodeChar_ascii hx hb]

theorem not_isContinuation_of_head {cs : List Char} {b : UInt8}
    (h : (ofChars cs).head? = some b) : ¬ Byte.isContinuation b := by
  cases cs with
  | nil => cases h
  | cons c cs =>
    obtain ⟨x, tail, hc, hx, -⟩ := utf8EncodeChar_eq_cons c
    rw [ofChars_cons, hc] at h
    obtain rfl : x = b := Option.some.inj h
    exact hx

theorem ofChars_cut {cs : List Char} {w rest : Bytes} (h : ofChars cs = w ++ rest)
    (hr : ∀ b, rest.head? = some b → ¬ Byte.isContinuation b) :
    ∃ ws rs, cs = ws ++ rs ∧ w = ofChars ws ∧ rest = ofChars rs := by
  induction cs generalizing w with
  | nil =>
    obtain ⟨rfl, rfl⟩ := List.append_eq_nil_iff.mp h.symm
    exact ⟨[], [], rfl, rfl, rfl⟩
  | cons c cs ih =>
    rw [ofChars_cons, List.append_eq_append_iff] at h
    rcases h with ⟨v, rfl, hv⟩ | ⟨v, hc, rfl⟩
    · obtain ⟨ws, rs, rfl, rfl, rfl⟩ := ih hv
      exact ⟨c :: ws, rs, rfl, rfl, rfl⟩
    · -- the cut lies inside or at an end of `c`
      obtain ⟨b, tail, hb, -, ht⟩ := utf8EncodeChar_eq_cons c
      rcases v with _ | ⟨x, v⟩
      · rw [List.append_nil] at hc
        exact ⟨[c], cs, rfl, by rw [← hc, ofChars_cons, ofChars_nil, List.append_nil], rfl⟩
      rcases w with _ | ⟨y, w⟩
      · exact ⟨[], c :: cs, rfl, rfl, by rw [ofChars_cons, hc, List.nil_append]⟩
      · have hx : x ∈ tail := by
          rw [hb, List.cons_append, List.cons.injEq] at hc
          rw [hc.2]
          exact List.mem_append_right _ List.mem_cons_self
        exact absurd (ht x hx) (hr x rfl)

theorem IsText.cut {w rest : Bytes} (h : IsText (w ++ rest))
    (hr : ∀ b, rest.head? = some b → ¬ Byte.isContinuation b) : IsText rest := by
  obtain ⟨cs, hcs⟩ := h
  obtain ⟨_, rs, _, _, he⟩ := ofChars_cut hcs.symm hr
  exact ⟨rs, he⟩

theorem IsText.front {v w : Bytes} (h : IsText (v ++ w)) (hw : w.IsText) : v.IsText := by
  obtain ⟨cs, hcs⟩ := h
  obtain ⟨ds, rfl⟩ := hw
  obtain ⟨vs, -, -, hv, -⟩ := ofChars_cut hcs.symm fun b hb => not_isContinuation_of_head hb
  exact ⟨vs, hv⟩

theorem not_isContinuation_of_ascii {b : UInt8} (h : b < 0x80) :
    ¬ Byte.isContinuation b := by
  simp only [Byte.isContinuation, Bool.and_eq_true, decide_eq_true_eq, not_and]
  intro hle
  exact absurd h (UInt8.not_lt.mpr hle)

theorem IsText.cut_after {w rest : Bytes} {b : UInt8} (h : IsText (w ++ b :: rest))
    (hb : b < 0x80) : IsText rest := by
  have hc := not_isContinuation_of_ascii hb
  obtain ⟨cs, hcs⟩ := h.cut (fun x hx => by rwa [← Option.some.inj hx])
  rcases cs with _ | ⟨c, cs⟩
  · cases hcs
  · obtain ⟨x, tail, hx, -, -⟩ := utf8EncodeChar_eq_cons c
    rw [ofChars_cons, hx, List.cons_append, List.cons.injEq] at hcs
    obtain rfl := utf8EncodeChar_ascii hx (hcs.1 ▸ hb)
    exact ⟨cs, hcs.2⟩

theorem utf8EncodeChar_append_inj {c d : Char} {r t : Bytes}
    (h : String.utf8EncodeChar c ++ r = String.utf8EncodeChar d ++ t) : c = d ∧ r = t := by
  have hb := congrArg (fun l => List.toByteArray l) h
  simp only [List.toByteArray_append] at hb
  have hc := ByteArray.utf8DecodeChar?_utf8EncodeChar_append (b := r.toByteArray) (c := c)
  rw [hb, ByteArray.utf8DecodeChar?_utf8EncodeChar_append] at hc
  obtain rfl := Option.some.inj hc
  exact ⟨rfl, List.append_cancel_left h⟩

theorem eq_of_utf8EncodeChar {c d : Char} {b : UInt8} {r t : Bytes}
    (h : String.utf8EncodeChar c ++ r = b :: t) (hd : String.utf8EncodeChar d = [b])
    (hb : b < 0x80) : c = d := by
  have hc := utf8EncodeChar_eq_singleton h hb
  apply And.left
  apply utf8EncodeChar_append_inj (r := []) (t := [])
  rw [hc, hd]

end ScriptLexer.Bytes
