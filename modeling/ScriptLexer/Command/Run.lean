import ScriptLexer.Command.Arguments
import ScriptLexer.Listing
import ScriptLexer.Report.Basic
import ScriptLexer.Cursor.Basic

namespace ScriptLexer

structure Outcome where
  exit : Nat
  output : Bytes
  errors : List String
deriving DecidableEq, Repr

namespace Outcome

def success (output : Bytes) (errors : List String) : Outcome := ⟨0, output, errors⟩

def failure (errors : List String) : Outcome := ⟨1, [], errors⟩

def misuse (error : String) : Outcome := ⟨2, [], ["error: " ++ error]⟩

/-- The run breaks off, and only what it has told by then is told. -/
def crash (errors : List String) : Outcome := ⟨101, [], errors⟩

end Outcome

namespace UsageError

def message : UsageError → String
  | .unknownOption argument => "unexpected argument '" ++ argument ++ "' found"
  | .repeatedOption argument => "the argument '" ++ argument ++ "' cannot be used multiple times"
  | .unexpectedFile argument => "unexpected argument '" ++ argument ++ "' found"
  | .emptyFile => "a value is required for '<FILE>' but none was supplied"
  | .noFile => "the following required arguments were not provided: <FILE>"

end UsageError

namespace Command

def helpText : String :=
  "rill - tokenize rill source files\n\nUsage: rill [OPTIONS] <FILE>\n\n" ++
    "Arguments:\n  <FILE>  Source file to scan\n\nOptions:\n" ++
    "      --json     Print tokens as a JSON array instead of one per line\n" ++
    "      --pretty   Render diagnostics with the offending source snippet\n" ++
    "  -h, --help     Print help\n  -V, --version  Print version\n"

def versionText : String := "rill 0.1.0\n"

def listing (document : Document) (json : Bool) (ts : List Token) : Bytes :=
  if json then Listing.json (LineIndex.ofText document.text) ts else Listing.plain ts

def drawOnto (draw : Diagnostic → Option (List String)) (done : List (List String)) :
    List Diagnostic → Bool × List String
  | [] => (true, done.reverse.flatten)
  | d :: ds =>
    match draw d with
    | some lines => drawOnto draw (lines :: done) ds
    | none => (false, done.reverse.flatten)

def complaints (render : Renderer) (document : Document) (pretty terminal : Bool)
    (ds : List Diagnostic) : Bool × List String :=
  if pretty then
    let index := LineIndex.ofText document.text
    drawOnto (fun d => (Report.of? document.path document.text index d).bind render.report) [] ds
  else
    (true, ds.map fun d => if terminal then d.colouredNotice else d.notice)

def scanDocument (render : Renderer) (document : Document) (json pretty terminal : Bool) :
    Outcome :=
  let result := ScriptLexer.scan document.text.bytes
  match complaints render document pretty terminal result.diagnostics with
  | (true, errors) => .success (listing document json result.tokens) errors
  | (false, errors) => .crash errors

def refuse (drawn : List String) : List String :=
  ("Error: " ++ drawn.headD "") :: drawn.tail

def run (render : Renderer) (entry : String → Entry) (terminal : Bool) : Command → Outcome
  | .help => .success (Bytes.ofString helpText) []
  | .version => .success (Bytes.ofString versionText) []
  | .misuse e => .misuse e.message
  | .scan file json pretty =>
    match Document.load file (entry file) with
    | .ok document => scanDocument render document json pretty terminal
    | .error e =>
      match render.error e.chain with
      | some drawn => .failure (refuse drawn)
      | none => .crash []

end Command

end ScriptLexer
