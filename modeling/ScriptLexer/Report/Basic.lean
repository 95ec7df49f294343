import ScriptLexer.Diagnostic
import ScriptLexer.Document
import ScriptLexer.Report.Window

namespace ScriptLexer

structure Report where
  message : String
  help : String
  label : Option Span
  window : Window
deriving DecidableEq, Repr

namespace Report

def code : String := "rill::scan"

def labelText : String := "here"

/-- The part of a span that a label covers: whole characters, and at most `Window.context` bytes. -/
def labelOf (text : Text) (s : Span) : Span :=
  Span.ofBounds s.start (max (text.floor (min s.stop (s.start + Window.context))) s.start)

def focus (text : Text) (index : LineIndex) (d : Diagnostic) : Span :=
  match d.span with
  | some s => labelOf text s
  | none => Span.empty ((index.lineStart? d.line).getD text.size)

def of? (name : String) (text : Text) (index : LineIndex) (d : Diagnostic) : Option Report :=
  (Window.around? name text index (focus text index d)).map fun window =>
    { message := d.issue.message
      help := "R" ++ toString d.issue.code ++ " reported at line " ++ toString d.line
      label := d.span.map (labelOf text)
      window := window }

def helpHeading : String := "  help: "

def snippet? (w : Window) (label : Span) : Option (List String) :=
  match w.read label 1 1, w.read label 0 0 with
  | .ok around, .ok alone => around.bytes.toString?.map fun shown =>
      ["   ╭─[" ++ w.name ++ ":" ++ alone.location.short ++ "]"] ++
        (shown.splitOn "\n").map ("   │ " ++ ·) ++ ["   · " ++ labelText, "   ╰────"]
  | _, _ => none

def lines? (r : Report) : Option (List String) :=
  (r.label.elim (some []) (snippet? r.window)).map fun snippet =>
    [code, "", "  × " ++ r.message] ++ snippet ++ [helpHeading ++ r.help]

end Report

/-- Draws in lines for the terminal what a run has to tell: reports, and errors that end it, as
their messages from the last one back to the first cause. A drawing can fail. -/
structure Renderer where
  report : Report → Option (List String)
  error : List String → Option (List String)

def Renderer.boxed : Renderer where
  report := Report.lines?
  error
    | [] => some []
    | message :: causes => some (("  × " ++ message) :: causes.map ("  ╰─▶ " ++ ·))

end ScriptLexer
