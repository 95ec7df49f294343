import ScriptLexer.Text

/-!
Lines and columns. A line ends after its line feed, and no other byte ends one; lines and columns
count from 1, columns in bytes. An index holds the offset at which each line starts, in order, so
the line of an offset is the number of starts at most that offset.
-/

namespace ScriptLexer

structure Location where
  line : Nat
  column : Nat
deriving DecidableEq, Repr

namespace Location

def short (l : Location) : String := toString l.line ++ ":" ++ toString l.column

def long (l : Location) : String :=
  "LineAndColumn \x7b line: " ++ toString l.line ++ ", column: " ++ toString l.column ++ " \x7d"

end Location

structure LineIndex where
  starts : Array Nat
deriving DecidableEq, Repr

namespace LineIndex

def startsFrom (pos : Nat) (bs : Bytes) : List Nat :=
  (bs.zipIdx pos).filterMap fun (b, i) => if b = Byte.lineFeed then some i else none

def ofText (text : Text) : LineIndex := ⟨(0 :: startsFrom 1 text.bytes).toArray⟩

def search (starts : Array Nat) (pos lo hi : Nat) : Nat :=
  if lo < hi then
    if starts.getD ((lo + hi) / 2) 0 ≤ pos then
      search starts pos ((lo + hi) / 2 + 1) hi
    else
      search starts pos lo ((lo + hi) / 2)
  else
    lo
termination_by hi - lo

def lineOf (index : LineIndex) (pos : Nat) : Nat := search index.starts pos 0 index.starts.size

def locate (index : LineIndex) (pos : Nat) : Location :=
  ⟨index.lineOf pos, pos - index.starts.getD (index.lineOf pos - 1) 0 + 1⟩

def lineStart? (index : LineIndex) : Nat → Option Nat
  | 0 => none
  | line + 1 => index.starts[line]?

@[simp]
theorem startsFrom_nil (pos : Nat) : startsFrom pos [] = [] := rfl

theorem startsFrom_cons (pos : Nat) (b : UInt8) (bs : Bytes) :
    startsFrom pos (b :: bs) =
      (if b = Byte.lineFeed then [pos] else []) ++ startsFrom (pos + 1) bs := by
  by_cases h : b = Byte.lineFeed <;> simp [startsFrom, h]

theorem length_startsFrom (pos : Nat) (bs : Bytes) :
    (startsFrom pos bs).length = bs.count Byte.lineFeed := by
  induction bs generalizing pos with
  | nil => simp
  | cons b bs ih =>
    rw [startsFrom_cons, List.length_append, ih]
    by_cases h : b = Byte.lineFeed
    · simp [h]
      omega
    · simp [h]

theorem size_starts_ofText (text : Text) :
    (ofText text).starts.size = 1 + text.bytes.count Byte.lineFeed := by
  simp [ofText, length_startsFrom]
  omega

end LineIndex

end ScriptLexer
