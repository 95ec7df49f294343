namespace ScriptLexer

structure Span where
  start : Nat
  length : Nat
deriving DecidableEq, Repr, Inhabited

namespace Span

def ofBounds (start stop : Nat) : Span := ⟨start, stop - start⟩

def empty (pos : Nat) : Span := ⟨pos, 0⟩

def stop (s : Span) : Nat := s.start + s.length

def isEmpty (s : Span) : Bool := s.length == 0

def contains (s : Span) (pos : Nat) : Bool := s.start ≤ pos && pos < s.stop

def shift (s : Span) (n : Nat) : Span := { s with start := s.start + n }

def interval (s : Span) : String := "[" ++ toString s.start ++ ", " ++ toString s.stop ++ ")"

def range (s : Span) : String := toString s.start ++ ".." ++ toString s.stop

theorem stop_ofBounds {start stop : Nat} (h : start ≤ stop) : (ofBounds start stop).stop = stop := by
  simp only [ofBounds, Span.stop]
  omega

theorem contains_iff (s : Span) (pos : Nat) : s.contains pos ↔ s.start ≤ pos ∧ pos < s.stop := by
  simp [contains]

theorem isEmpty_iff (s : Span) : s.isEmpty ↔ ∀ pos, ¬ s.contains pos := by
  simp only [isEmpty, contains_iff, stop, beq_iff_eq]
  constructor
  · intro h pos
    omega
  · intro h
    have := h s.start
    omega

end Span

end ScriptLexer
