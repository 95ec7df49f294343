import ScriptLexer.Bytes

/-!
Reading a passage out of a few lines of text: the bytes asked for, extended to whole lines by as
many lines before and after as are wanted. Here a line break is a line feed, a carriage return, or
the two in that order. The text is read piece by piece and no further than the passage needs.
-/

namespace ScriptLexer

structure ReadRequest where
  start : Nat
  length : Nat
  before : Nat
  after : Nat
deriving DecidableEq, Repr

structure Passage where
  bytes : Bytes
  offset : Nat
  line : Nat
  column : Nat
  lineCount : Nat
deriving DecidableEq, Repr

inductive ReadError where
  | outOfBounds
  | startsPastEnd
deriving DecidableEq, Repr

namespace Passage

inductive Piece where
  | byte
  | shortBreak
  | longBreak
deriving DecidableEq, Repr

namespace Piece

def last : Piece → Nat
  | .longBreak => 1
  | _ => 0

def isBreak : Piece → Bool
  | .byte => false
  | _ => true

def split : Bytes → List Piece
  | [] => []
  | [b] => [if b = Byte.carriageReturn ∨ b = Byte.lineFeed then .shortBreak else .byte]
  | b :: c :: rest =>
    if b = Byte.carriageReturn ∧ c = Byte.lineFeed then .longBreak :: split rest
    else if b = Byte.carriageReturn ∨ b = Byte.lineFeed then .shortBreak :: split (c :: rest)
    else .byte :: split (c :: rest)

end Piece

end Passage

namespace ReadRequest

def lastByte (q : ReadRequest) : Nat := q.start + (q.length - 1)

def reach (q : ReadRequest) : Nat := q.start + q.length - 1

end ReadRequest

namespace Passage

/-- What has been seen so far: the place reached, the line breaks passed, the line and column of the
start of the passage, the starts of the lines kept before it, and how far past it reading is. -/
structure Reader where
  offset : Nat
  breaks : Nat
  line : Nat
  column : Nat
  lineStart : Nat
  kept : List Nat
  covered : Bool
  ended : Bool
  trailing : Nat
  finished : Bool
deriving DecidableEq, Repr

namespace Reader

def initial : Reader := ⟨0, 0, 0, 0, 0, [], false, false, 0, false⟩

def keepLine (q : ReadRequest) (r : Reader) : Reader :=
  let kept := r.kept ++ [r.lineStart]
  if q.before < kept.length then
    { r with column := 0, kept := kept.tail, line := r.line + 1 }
  else
    { r with column := 0, kept := kept }

def closeLine (r : Reader) : Reader :=
  { r with column := 0, ended := true, trailing := if r.ended then r.trailing + 1 else r.trailing }

def passBreak (q : ReadRequest) (pos : Nat) (r : Reader) : Reader :=
  let r := { r with breaks := r.breaks + 1 }
  let r :=
    if pos < q.start then r.keepLine q
    else if q.lastByte ≤ pos ∧ r.covered then r.closeLine
    else r
  { r with lineStart := pos + 1 }

def passByte (q : ReadRequest) (pos : Nat) (r : Reader) : Reader :=
  if pos < q.start then { r with column := r.column + 1 } else r

def step (q : ReadRequest) (r : Reader) (p : Piece) : Reader :=
  if r.finished then
    r
  else
    let pos := r.offset + p.last
    let r := if p.isBreak then r.passBreak q pos else r.passByte q pos
    { r with
      offset := pos + 1
      covered := r.covered || q.reach ≤ pos
      finished := q.reach ≤ pos && q.after ≤ r.trailing }

def run (q : ReadRequest) (bs : Bytes) : Reader := (Piece.split bs).foldl (step q) initial

/-- Where the passage starts: with the first line kept, or if there is none at the start of the
text, unless no line before is wanted. -/
def passageStart (q : ReadRequest) (r : Reader) : Nat :=
  r.kept.head?.getD (if q.before = 0 then q.start else 0)

end Reader

def read (q : ReadRequest) (bs : Bytes) : Except ReadError Passage :=
  let r := Reader.run q bs
  let start := r.passageStart q
  if r.offset < q.reach then
    .error .outOfBounds
  else if r.offset < start then
    .error .startsPastEnd
  else
    .ok {
      bytes := (bs.drop start).take (r.offset - start)
      offset := start
      line := r.line
      column := if q.before = 0 then r.column else 0
      lineCount := r.breaks }

theorem Piece.sum_split (bs : Bytes) :
    (Piece.split bs).foldr (fun p n => p.last + 1 + n) 0 = bs.length := by
  fun_induction Piece.split bs with
  | case1 => rfl
  | case2 b => split <;> rfl
  | case3 b c rest h ih =>
    rw [List.foldr_cons, ih]
    simp only [Piece.last, List.length_cons]
    omega
  | case4 b c rest h h' ih =>
    rw [List.foldr_cons, ih]
    simp only [Piece.last, List.length_cons]
    omega
  | case5 b c rest h h' ih =>
    rw [List.foldr_cons, ih]
    simp only [Piece.last, List.length_cons]
    omega

namespace Reader

theorem offset_step (q : ReadRequest) (r : Reader) (p : Piece) :
    (r.step q p).offset = if r.finished then r.offset else r.offset + p.last + 1 := by
  simp only [step]
  split <;> rfl

theorem offset_foldl_le (q : ReadRequest) (ps : List Piece) (r : Reader) :
    (ps.foldl (step q) r).offset ≤ r.offset + ps.foldr (fun p n => p.last + 1 + n) 0 := by
  induction ps generalizing r with
  | nil => exact Nat.le_refl _
  | cons p ps ih =>
    have h := ih (r.step q p)
    rw [offset_step] at h
    rw [List.foldl_cons, List.foldr_cons]
    split at h <;> omega

theorem offset_run_le (q : ReadRequest) (bs : Bytes) : (run q bs).offset ≤ bs.length := by
  have h := offset_foldl_le q (Piece.split bs) initial
  rw [Piece.sum_split] at h
  exact Nat.le_trans h (Nat.le_of_eq (Nat.zero_add _))

end Reader

end Passage

end ScriptLexer
