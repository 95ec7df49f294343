import ScriptLexer.Bytes
import ScriptLexer.Span

namespace ScriptLexer

structure Issue where
  code : Nat
  message : String
deriving DecidableEq, Repr

namespace Issue

def unidentifiedToken : Issue := ⟨1001, "Unidentified token"⟩

def unterminatedString : Issue := ⟨1002, "Unterminated string"⟩

def unterminatedComment : Issue := ⟨1003, "Unterminated multi line comment"⟩

def unterminatedBacktick : Issue := ⟨1004, "Unterminated backtick operator"⟩

def unidentifiedBacktick : Issue := ⟨1005, "Unidentified backtick operator"⟩

/-- The issues that a scan can find. A diagnostic from elsewhere may have another one. -/
def all : List Issue :=
  [unidentifiedToken, unterminatedString, unterminatedComment, unterminatedBacktick,
    unidentifiedBacktick]

def ofCode? (n : Nat) : Option Issue := all.find? (·.code == n)

theorem ofCode?_code {i : Issue} (h : i ∈ all) : ofCode? i.code = some i := by
  revert i
  decide

end Issue

structure Diagnostic where
  issue : Issue
  line : Nat
  span : Option Span
deriving DecidableEq, Repr

namespace Diagnostic

def le (d e : Diagnostic) : Bool :=
  d.line < e.line ||
    d.line == e.line && (d.span.elim 0 Span.start ≤ e.span.elim 0 Span.start)

def sort (ds : List Diagnostic) : List Diagnostic := ds.mergeSort le

def shift (bytes lines : Nat) (d : Diagnostic) : Diagnostic :=
  { d with line := d.line + lines, span := d.span.map (·.shift bytes) }

def heading : String := "Syntax Error"

def notice (d : Diagnostic) : String :=
  heading ++ ": " ++ d.issue.message ++ " at line " ++ toString d.line

def colouredNotice (d : Diagnostic) : String :=
  "\x1b[1m\x1b[31m" ++ heading ++ "\x1b[0m: " ++ d.issue.message ++ " at line " ++ toString d.line

theorem le_iff (d e : Diagnostic) :
    d.le e ↔ d.line < e.line ∨
      d.line = e.line ∧ d.span.elim 0 Span.start ≤ e.span.elim 0 Span.start := by
  simp [le]

theorem le_trans (c d e : Diagnostic) (h : c.le d) (k : d.le e) : c.le e := by
  rw [le_iff] at *
  omega

theorem le_total (d e : Diagnostic) : d.le e || e.le d := by
  rw [Bool.or_eq_true, le_iff, le_iff]
  omega

theorem sort_perm (ds : List Diagnostic) : (sort ds).Perm ds := List.mergeSort_perm ds le

theorem sort_pairwise (ds : List Diagnostic) : (sort ds).Pairwise (fun d e => d.le e) :=
  List.pairwise_mergeSort le_trans le_total ds

end Diagnostic

end ScriptLexer
