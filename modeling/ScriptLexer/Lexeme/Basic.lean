import ScriptLexer.Diagnostic
import ScriptLexer.Lexeme.Rule
import ScriptLexer.Token

/-!
The lexeme at the front of unread text, picked by its first byte. Every byte begins some lexeme: one
that no rule accepts begins an unidentified one, and so does an opening that is never closed.
-/

namespace ScriptLexer

structure Lexeme where
  kind : Kind
  length : Nat
  issue : Option Issue
deriving DecidableEq, Repr

namespace Lexeme

def string (rest : Bytes) : Lexeme :=
  match Rule.through? Byte.quote rest with
  | some n => ⟨.string, n + 1, none⟩
  | none => ⟨.string, rest.length + 1, some .unterminatedString⟩

def backtick (rest : Bytes) : Lexeme :=
  match Rule.through? Byte.backtick rest with
  | none => ⟨.unidentified, rest.length + 1, some .unterminatedBacktick⟩
  | some n =>
    match Operator.ofWord? (Byte.backtick :: rest.take n) with
    | some o => ⟨.operator o, n + 1, none⟩
    | none => ⟨.unidentified, n + 1, some .unidentifiedBacktick⟩

def name (bs : Bytes) : Lexeme :=
  match Keyword.ofWord? (bs.take (Rule.name bs)) with
  | some k => ⟨.keyword k, Rule.name bs, none⟩
  | none => ⟨.identifier, Rule.name bs, none⟩

def unclosedComment (bs : Bytes) : Lexeme :=
  ⟨.unidentified, bs.length, some .unterminatedComment⟩

def symbol (b : UInt8) (rest : Bytes) : Lexeme :=
  match Operator.symbolAt? (b :: rest) with
  | some (s, o) => ⟨.operator o, s.length, none⟩
  | none => ⟨.unidentified, Rule.run Byte.isContinuation rest + 1, some .unidentifiedToken⟩

def beginsNumber (b : UInt8) (rest : Bytes) : Bool :=
  Byte.isDigit b || b == Byte.point && rest.head?.any Byte.isDigit

/-- The lexeme of text that begins with `b` and does not begin with trivia. A comment that begins
here is therefore not closed. -/
def front (b : UInt8) (rest : Bytes) : Lexeme :=
  if b = Byte.quote then string rest
  else if b = Byte.backtick then backtick rest
  else if beginsNumber b rest then ⟨.number, Rule.number (b :: rest), none⟩
  else if Byte.isNameStart b then name (b :: rest)
  else if b = Byte.slash ∧ rest.head? = some Byte.star then unclosedComment (b :: rest)
  else symbol b rest

theorem number_pos {b : UInt8} {rest : Bytes} (h : beginsNumber b rest) :
    0 < Rule.number (b :: rest) := by
  simp only [beginsNumber, Bool.or_eq_true, Bool.and_eq_true, beq_iff_eq] at h
  by_cases hd : Byte.isDigit b
  · have hp : 0 < Rule.digits (b :: rest) := by
      rw [Rule.digits, Rule.run_cons, if_pos hd]
      exact Nat.succ_pos _
    exact Nat.lt_of_lt_of_le hp (Rule.le_andThen _ _ _)
  · obtain ⟨rfl, hr⟩ := h.resolve_left hd
    have hz : Rule.digits (Byte.point :: rest) = 0 := by
      rw [Rule.digits, Rule.run_cons, if_neg hd]
    have hn : rest.head? ≠ some Byte.point := by
      intro he
      rw [he] at hr
      exact absurd hr (by decide)
    have hp : 0 < Rule.point (Byte.point :: rest) := by
      rw [Rule.point, if_pos ⟨rfl, hn⟩]
      exact Nat.one_pos
    rw [Rule.number, Rule.andThen_of_eq_zero hz]
    exact Nat.lt_of_lt_of_le hp (Rule.le_andThen _ _ _)

theorem name_pos {b : UInt8} {rest : Bytes} (h : Byte.isNameStart b) :
    0 < Rule.name (b :: rest) := by
  rw [Rule.name, Rule.run_cons, if_pos (Byte.isNamePart_of_isNameStart h)]
  exact Nat.succ_pos _

theorem length_pos (b : UInt8) (rest : Bytes) : 0 < (front b rest).length := by
  simp only [front]
  split
  · simp only [string]
    split <;> simp
  split
  · simp only [backtick]
    split
    · simp
    · split <;> simp
  split
  · next h => exact number_pos h
  split
  · next h =>
    simp only [name]
    split <;> exact name_pos h
  split
  · simp [unclosedComment]
  · simp only [symbol]
    split
    · next h => exact (Operator.symbolAt?_length h).1
    · simp

theorem length_le (b : UInt8) (rest : Bytes) : (front b rest).length ≤ rest.length + 1 := by
  simp only [front]
  split
  · simp only [string]
    split
    · next h => exact Nat.succ_le_succ (Rule.through?_le h).2
    · exact Nat.le_refl _
  split
  · simp only [backtick]
    split
    · exact Nat.le_refl _
    · next h => split <;> exact Nat.succ_le_succ (Rule.through?_le h).2
  split
  · exact Rule.number_le (b :: rest)
  split
  · simp only [name]
    split <;> exact Rule.run_le _ (b :: rest)
  split
  · exact Nat.le_refl _
  · simp only [symbol]
    split
    · next h => exact (Operator.symbolAt?_length h).2
    · exact Nat.succ_le_succ (Rule.run_le _ rest)

theorem kind_ne_endOfText (b : UInt8) (rest : Bytes) : (front b rest).kind ≠ .endOfText := by
  simp only [front]
  split
  · simp only [string]
    split <;> simp
  split
  · simp only [backtick]
    split
    · simp
    · split <;> simp
  split
  · simp
  split
  · simp only [name]
    split <;> simp
  split
  · simp [unclosedComment]
  · simp only [symbol]
    split <;> simp

end Lexeme

end ScriptLexer
