import ScriptLexer.Proofs.LineLocations

namespace ScriptLexer

namespace Text

def lineAt (text : Text) (pos : Nat) : Nat := 1 + (text.bytes.take pos).count Byte.lineFeed

def columnAt (text : Text) (pos : Nat) : Nat :=
  1 + ((text.bytes.take pos).reverse.takeWhile (· != Byte.lineFeed)).length

structure StartsLine (text : Text) (line pos : Nat) : Prop where
  behind : pos = 0 ∨ ∃ i, pos = i + 1 ∧ text.bytes[i]? = some Byte.lineFeed
  line_eq : line = text.lineAt pos

theorem count_take_succ {bs : Bytes} {i : Nat} (h : bs[i]? = some Byte.lineFeed) :
    (bs.take (i + 1)).count Byte.lineFeed = (bs.take i).count Byte.lineFeed + 1 := by
  rw [List.take_add_one, h, List.count_append]
  rfl

theorem lineAt_zero (text : Text) : text.lineAt 0 = 1 := rfl

theorem lineAt_size (text : Text) :
    text.lineAt text.size = 1 + text.bytes.count Byte.lineFeed := by
  rw [lineAt, List.take_of_length_le (Nat.le_of_eq (length_bytes text))]

theorem lineAt_pos (text : Text) (pos : Nat) : 0 < text.lineAt pos :=
  Nat.add_pos_left Nat.one_pos _

theorem lineAt_le (text : Text) (pos : Nat) :
    text.lineAt pos ≤ 1 + text.bytes.count Byte.lineFeed :=
  Nat.add_le_add_left ((List.take_sublist pos text.bytes).count_le _) 1

theorem lineAt_add_count {text : Text} {a b : Nat} (h : a ≤ b) :
    text.lineAt b = text.lineAt a + (text.slice a b).count Byte.lineFeed := by
  rw [lineAt, lineAt, LineIndex.slice_split h, List.count_append, Nat.add_assoc]

end Text

namespace LineIndex

theorem lineOf_eq_lineAt (text : Text) (pos : Nat) : (ofText text).lineOf pos = text.lineAt pos :=
  lineOf_ofText text pos

theorem columnFrom_reverse (bs : Bytes) :
    Bytes.columnFrom 0 bs.reverse = (bs.takeWhile (· != Byte.lineFeed)).length := by
  induction bs with
  | nil => rfl
  | cons b bs ih =>
    rw [List.reverse_cons, Bytes.columnFrom_append, Bytes.columnFrom_cons, ih]
    by_cases hb : b = Byte.lineFeed
    · simp [hb, Bytes.columnFrom]
    · simp [hb, Bytes.columnFrom]

theorem locate_eq {text : Text} {pos : Nat} (h : pos ≤ text.size) :
    (ofText text).locate pos = ⟨text.lineAt pos, text.columnAt pos⟩ := by
  have hc := columnFrom_reverse (text.bytes.take pos).reverse
  rw [List.reverse_reverse] at hc
  rw [locate_ofText h, hc, Text.lineAt, Text.columnAt, Nat.add_comm 1 (List.length _)]

theorem getElem?_startsFrom_iff {bs : Bytes} {base n pos : Nat} :
    (startsFrom base bs)[n]? = some pos ↔
      ∃ i, pos = base + i ∧ bs[i]? = some Byte.lineFeed ∧
        (bs.take i).count Byte.lineFeed = n := by
  induction bs generalizing base n with
  | nil => simp
  | cons b bs ih =>
    rw [startsFrom_cons]
    by_cases hb : b = Byte.lineFeed
    · subst hb
      cases n with
      | zero =>
        constructor
        · intro h
          exact ⟨0, (Option.some.inj h).symm, rfl, rfl⟩
        · rintro ⟨i, rfl, -, hn⟩
          cases i with
          | zero => rfl
          | succ i => simp at hn
      | succ n =>
        rw [if_pos rfl, List.singleton_append, List.getElem?_cons_succ, ih]
        constructor
        · rintro ⟨i, rfl, hi, hn⟩
          exact ⟨i + 1, by omega, hi, by simp [hn]⟩
        · rintro ⟨i, rfl, hi, hn⟩
          cases i with
          | zero => simp at hn
          | succ i => exact ⟨i, by omega, hi, by simpa using hn⟩
    · rw [if_neg hb, List.nil_append, ih]
      constructor
      · rintro ⟨i, rfl, hi, hn⟩
        exact ⟨i + 1, by omega, hi, by simp [hb, hn]⟩
      · rintro ⟨i, rfl, hi, hn⟩
        cases i with
        | zero => exact absurd (Option.some.inj hi) hb
        | succ i => exact ⟨i, by omega, hi, by simpa [hb] using hn⟩

theorem lineStart?_iff {text : Text} {line pos : Nat} :
    (ofText text).lineStart? line = some pos ↔ text.StartsLine line pos := by
  cases line with
  | zero =>
    constructor
    · intro h
      cases h
    · rintro ⟨-, h⟩
      rw [Text.lineAt] at h
      omega
  | succ n =>
    have hstarts : (ofText text).lineStart? (n + 1) = (0 :: startsFrom 1 text.bytes)[n]? := by
      rw [lineStart?, ofText, List.getElem?_toArray]
    rw [hstarts]
    cases n with
    | zero =>
      constructor
      · intro h
        obtain rfl := Option.some.inj h
        exact ⟨Or.inl rfl, rfl⟩
      · rintro ⟨rfl | ⟨i, rfl, hi⟩, hline⟩
        · rfl
        · rw [Text.lineAt, Text.count_take_succ hi] at hline
          omega
    | succ n =>
      rw [List.getElem?_cons_succ, getElem?_startsFrom_iff]
      constructor
      · rintro ⟨i, rfl, hi, hn⟩
        refine ⟨Or.inr ⟨i, Nat.add_comm 1 i, hi⟩, ?_⟩
        rw [Nat.add_comm 1 i, Text.lineAt, Text.count_take_succ hi, hn, Nat.add_comm]
      · rintro ⟨rfl | ⟨i, rfl, hi⟩, hline⟩
        · rw [Text.lineAt_zero] at hline
          omega
        · rw [Text.lineAt, Text.count_take_succ hi] at hline
          exact ⟨i, Nat.add_comm i 1, hi, by omega⟩

theorem exists_lineStart? {text : Text} {line : Nat} (h : 0 < line)
    (hl : line ≤ text.lineAt text.size) : ∃ pos, (ofText text).lineStart? line = some pos := by
  cases line with
  | zero => exact absurd h (Nat.lt_irrefl 0)
  | succ n =>
    have hn : n < (ofText text).starts.size := by
      rw [Text.lineAt_size] at hl
      rw [size_starts_ofText]
      omega
    exact ⟨_, Array.getElem?_eq_getElem hn⟩

end LineIndex

end ScriptLexer
