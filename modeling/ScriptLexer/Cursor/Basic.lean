import ScriptLexer.Diagnostic
import ScriptLexer.Lexeme.Basic
import ScriptLexer.Lexeme.Trivia
import ScriptLexer.Token

/-!
A cursor stands at an offset of a text and knows what is unread and on which line it is. A step
skips trivia and takes one lexeme; at the end of the text every further step gives the same end.
-/

namespace ScriptLexer

structure Cursor where
  unread : Bytes
  pos : Nat
  line : Nat
deriving DecidableEq, Repr

structure Step where
  token : Token
  diagnostic : Option Diagnostic
  cursor : Cursor
deriving DecidableEq, Repr

namespace Cursor

def start (bs : Bytes) : Cursor := ⟨bs, 0, 1⟩

def atEnd (c : Cursor) : Bool := c.unread.isEmpty

def advance (c : Cursor) (n : Nat) : Cursor :=
  ⟨c.unread.drop n, c.pos + n, c.line + (c.unread.take n).count Byte.lineFeed⟩

def skipTrivia (c : Cursor) : Cursor :=
  if Trivia.piece c.unread = 0 then c else (c.advance (Trivia.piece c.unread)).skipTrivia
termination_by c.unread.length
decreasing_by
  have hl := Trivia.piece_le c.unread
  simp only [advance, List.length_drop]
  omega

/-- Takes the lexeme at the cursor, which does not stand before trivia. A diagnostic covers the
lexeme and names the line on which it ends. -/
def takeLexeme (c : Cursor) : Step :=
  match c.unread with
  | [] => ⟨⟨.endOfText, [], ⟨c.pos, 0⟩, c.line⟩, none, c⟩
  | b :: rest =>
    let lexeme := Lexeme.front b rest
    let after := c.advance lexeme.length
    let span : Span := ⟨c.pos, lexeme.length⟩
    ⟨⟨lexeme.kind, c.unread.take lexeme.length, span, c.line⟩,
      lexeme.issue.map fun issue => ⟨issue, after.line, some span⟩, after⟩

def next (c : Cursor) : Step := c.skipTrivia.takeLexeme

theorem advance_zero (c : Cursor) : c.advance 0 = c := by
  simp [advance]

theorem advance_advance (c : Cursor) (m n : Nat) : (c.advance m).advance n = c.advance (m + n) := by
  simp only [advance, List.drop_drop, List.take_add, List.count_append, Cursor.mk.injEq, true_and]
  omega

theorem length_unread_advance (c : Cursor) (n : Nat) :
    (c.advance n).unread.length = c.unread.length - n := by
  simp [advance]

theorem length_unread_skipTrivia_le (c : Cursor) :
    c.skipTrivia.unread.length ≤ c.unread.length := by
  fun_induction skipTrivia c with
  | case1 c h => exact Nat.le_refl _
  | case2 c h ih =>
    rw [length_unread_advance] at ih
    omega

theorem kind_takeLexeme (c : Cursor) : c.takeLexeme.token.kind = .endOfText ↔ c.unread = [] := by
  simp only [takeLexeme]
  split
  · next h => simp [h]
  · next b rest h => simp [h, Lexeme.kind_ne_endOfText]

theorem length_unread_takeLexeme_lt (c : Cursor) (h : c.unread ≠ []) :
    c.takeLexeme.cursor.unread.length < c.unread.length := by
  simp only [takeLexeme]
  split
  · next hn => exact absurd hn h
  · next b rest hc =>
    have hp := Lexeme.length_pos b rest
    rw [length_unread_advance, hc, List.length_cons]
    omega

theorem length_unread_next_lt (c : Cursor) (h : c.next.token.kind ≠ .endOfText) :
    c.next.cursor.unread.length < c.unread.length := by
  have ht := length_unread_takeLexeme_lt c.skipTrivia (fun he => h ((kind_takeLexeme _).mpr he))
  exact Nat.lt_of_lt_of_le ht (length_unread_skipTrivia_le c)

def stepsOnto (done : List Step) (c : Cursor) : List Step :=
  if c.next.token.kind = .endOfText then
    (c.next :: done).reverse
  else
    stepsOnto (c.next :: done) c.next.cursor
termination_by c.unread.length
decreasing_by exact length_unread_next_lt c ‹_›

def steps (c : Cursor) : List Step := stepsOnto [] c

theorem stepsOnto_eq (done : List Step) (c : Cursor) :
    stepsOnto done c = done.reverse ++ steps c := by
  simp only [steps]
  by_cases h : c.next.token.kind = .endOfText
  · rw [stepsOnto.eq_def done c, stepsOnto.eq_def [] c, if_pos h, if_pos h]
    simp
  · rw [stepsOnto.eq_def done c, stepsOnto.eq_def [] c, if_neg h, if_neg h]
    rw [stepsOnto_eq (c.next :: done), stepsOnto_eq [c.next]]
    simp
termination_by c.unread.length
decreasing_by all_goals exact length_unread_next_lt c h

theorem steps_eq (c : Cursor) :
    c.steps = if c.next.token.kind = .endOfText then [c.next]
      else c.next :: c.next.cursor.steps := by
  rw [steps, stepsOnto]
  split
  · rfl
  · rw [stepsOnto_eq]
    rfl

end Cursor

structure Scan where
  tokens : List Token
  diagnostics : List Diagnostic
deriving DecidableEq, Repr

def Scan.hasErrors (s : Scan) : Bool := !s.diagnostics.isEmpty

def Cursor.scan (c : Cursor) : Scan :=
  let steps := c.steps
  ⟨(steps.map (·.token)).filter (·.isProduced), steps.filterMap (·.diagnostic)⟩

def scan (bs : Bytes) : Scan := (Cursor.start bs).scan

namespace Scan

theorem hasErrors_iff (s : Scan) : s.hasErrors ↔ s.diagnostics ≠ [] := by
  simp [hasErrors]

theorem mem_diagnostics_iff (c : Cursor) (d : Diagnostic) :
    d ∈ c.scan.diagnostics ↔ ∃ s ∈ c.steps, s.diagnostic = some d := by
  simp [Cursor.scan]

end Scan

end ScriptLexer
