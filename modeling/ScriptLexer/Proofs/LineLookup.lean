import ScriptLexer.Proofs.LineStarts

namespace ScriptLexer.LineIndex

def locate? (index : LineIndex) (pos : Nat) : Option Location := do
  let start ← index.lineStart? (index.lineOf pos)
  if start ≤ pos then some ⟨index.lineOf pos, pos - start + 1⟩ else none

structure Places (index : LineIndex) (pos : Nat) (l : Location) : Prop where
  line_eq : l.line = index.lineOf pos
  column_pos : 0 < l.column
  column_le : l.column ≤ pos + 1
  line_start : ∃ start ∈ index.lineStart? l.line, start + l.column - 1 = pos
  before_next : ∀ next ∈ index.lineStart? (l.line + 1), pos < next

structure WorksBothWays (index : LineIndex) (text : Text) : Prop where
  lineOf_eq : ∀ pos, index.lineOf pos = 1 + (text.bytes.take pos).count Byte.lineFeed
  locate?_eq : ∀ pos, index.locate? pos = some (index.locate pos)
  places : ∀ pos, index.Places pos (index.locate pos)
  isSome_iff : ∀ line, (index.lineStart? line).isSome ↔
    1 ≤ line ∧ line ≤ 1 + text.bytes.count Byte.lineFeed
  increasing : ∀ l m a b, a ∈ index.lineStart? l → b ∈ index.lineStart? m → l < m → a < b
  lineOf_start : ∀ line, ∀ start ∈ index.lineStart? line, index.lineOf start = line

variable {text : Text} {line pos start : Nat}

theorem lineStart?_isSome_iff :
    ((ofText text).lineStart? line).isSome ↔
      1 ≤ line ∧ line ≤ 1 + text.bytes.count Byte.lineFeed := by
  cases line with
  | zero => simp [lineStart?]
  | succ n =>
    rw [lineStart?, Option.isSome_iff_ne_none, Ne, Array.getElem?_eq_none_iff,
      size_starts_ofText]
    omega

theorem lineOf_lineStart? (h : (ofText text).lineStart? line = some start) :
    (ofText text).lineOf start = line := by
  rw [lineOf_eq_lineAt, (lineStart?_iff.mp h).line_eq]

theorem lineOf_mono (text : Text) {a b : Nat} (h : a ≤ b) :
    (ofText text).lineOf a ≤ (ofText text).lineOf b := by
  rw [lineOf_eq_lineAt, lineOf_eq_lineAt, Text.lineAt_add_count h]
  exact Nat.le_add_right _ _

theorem lt_of_lineOf_lt {a b : Nat} (h : (ofText text).lineOf a < (ofText text).lineOf b) : a < b :=
  Nat.lt_of_not_le fun hle => Nat.not_le_of_lt h (lineOf_mono text hle)

theorem lineStart?_lt {l m a b : Nat} (ha : (ofText text).lineStart? l = some a)
    (hb : (ofText text).lineStart? m = some b) (h : l < m) : a < b := by
  apply lt_of_lineOf_lt
  rwa [lineOf_lineStart? ha, lineOf_lineStart? hb]

theorem exists_start_of_lineOf (text : Text) (pos : Nat) :
    ∃ start, (ofText text).lineStart? ((ofText text).lineOf pos) = some start ∧ start ≤ pos ∧
      (ofText text).locate pos = ⟨(ofText text).lineOf pos, pos - start + 1⟩ := by
  have hpos : 0 < (ofText text).lineOf pos := by
    rw [lineOf_eq_lineAt]
    exact text.lineAt_pos pos
  obtain ⟨line, hline⟩ := Nat.exists_eq_succ_of_ne_zero (Nat.ne_of_gt hpos)
  obtain ⟨-, hsize, hbelow, -⟩ := divides_lineOf text pos
  have hlt : line < (ofText text).starts.size := by omega
  have hstart := Array.getElem?_eq_getElem hlt
  refine ⟨_, by rw [hline, lineStart?, hstart], ?_, ?_⟩
  · have := hbelow line (by omega)
    rwa [Array.getD, dif_pos hlt] at this
  · rw [locate, hline, Nat.succ_sub_one, Array.getD, dif_pos hlt]
    rfl

theorem locate?_eq_some (text : Text) (pos : Nat) :
    (ofText text).locate? pos = some ((ofText text).locate pos) := by
  obtain ⟨start, hstart, hle, hl⟩ := exists_start_of_lineOf text pos
  rw [locate?, hstart, hl]
  exact if_pos hle

theorem lt_lineStart? (h : (ofText text).lineStart? ((ofText text).lineOf pos + 1) = some start) :
    pos < start := by
  apply lt_of_lineOf_lt
  rw [lineOf_lineStart? h]
  exact Nat.lt_succ_self _

theorem places_locate (text : Text) (pos : Nat) :
    (ofText text).Places pos ((ofText text).locate pos) := by
  obtain ⟨start, hstart, hle, hl⟩ := exists_start_of_lineOf text pos
  rw [hl]
  refine ⟨rfl, Nat.succ_pos _, ?_, ⟨start, hstart, ?_⟩, fun next hnext => lt_lineStart? hnext⟩
  · exact Nat.succ_le_succ (Nat.sub_le pos start)
  · exact Nat.add_sub_cancel' hle

theorem Places.line_pos {l : Location} (h : (ofText text).Places pos l) : 0 < l.line := by
  rw [h.line_eq, lineOf_eq_lineAt]
  exact text.lineAt_pos pos

theorem index_works_both_ways (text : Text) : (ofText text).WorksBothWays text where
  lineOf_eq := lineOf_ofText text
  locate?_eq := locate?_eq_some text
  places := places_locate text
  isSome_iff _ := lineStart?_isSome_iff
  increasing _ _ _ _ ha hb h := lineStart?_lt ha hb h
  lineOf_start _ _ h := lineOf_lineStart? h

end ScriptLexer.LineIndex
