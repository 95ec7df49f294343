import ScriptLexer.LineIndex.Basic
import ScriptLexer.Report.Passage
import ScriptLexer.Span
import ScriptLexer.Text

/-!
A window is the part of a text that a report shows. It holds the label, and on either side at most
one more line and at most `context` bytes. Reading a window speaks of offsets and lines of the whole
text; lines and columns count from 0 here.
-/

namespace ScriptLexer

def Passage.location (p : Passage) : Location := ⟨p.line + 1, p.column + 1⟩

structure Window where
  name : String
  contents : Bytes
  offset : Nat
  line : Nat
  column : Nat
deriving DecidableEq, Repr

namespace Window

def context : Nat := 120

def secondLineFeed? (bs : Bytes) : Option Nat :=
  (bs.idxOf? Byte.lineFeed).bind fun i =>
    ((bs.drop (i + 1)).idxOf? Byte.lineFeed).map (i + 1 + ·)

def start (text : Text) (index : LineIndex) (labelStart : Nat) : Nat :=
  let line := (index.lineStart? (max 1 (index.lineOf labelStart - 1))).getD 0
  text.ceil (max line (labelStart - context))

def stop? (text : Text) (labelStop : Nat) : Option Nat :=
  let limit := text.floor (labelStop + context)
  (text.slice? labelStop limit).map fun bs =>
    (secondLineFeed? bs).elim limit (labelStop + ·)

def around? (name : String) (text : Text) (index : LineIndex) (label : Span) : Option Window := do
  let start := start text index label.start
  let stop ← stop? text label.stop
  let contents ← text.slice? start stop
  let location := index.locate start
  return ⟨name, contents, start, location.line - 1, location.column - 1⟩

/-- Reads a stretch of the text that lies in the window. A start before the window counts as the
start of the window. The column of the window applies to its first line alone. -/
def read (w : Window) (span : Span) (before after : Nat) : Except ReadError Passage := do
  let p ← Passage.read ⟨span.start - w.offset, span.length, before, after⟩ w.contents
  return { p with
    offset := p.offset + w.offset
    line := w.line + p.line
    column := if p.line = 0 then w.column + p.column else p.column }

end Window

end ScriptLexer
