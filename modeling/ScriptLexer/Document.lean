import ScriptLexer.Text

namespace ScriptLexer

namespace Path

def isIdle (step : String) : Bool := step == "." || step == ""

/-- The steps that count. That of an absolute path into the root is written as a slash. -/
def steps (path : String) : List String :=
  match path.splitOn "/" with
  | [] | [""] => []
  | first :: rest => (if first = "" then "/" else first) :: rest.filter (!isIdle ·)

def same (p q : String) : Bool := steps p == steps q

theorem same_iff (p q : String) : same p q ↔ steps p = steps q := by
  simp [same]

end Path

structure Document where
  path : String
  text : Text
  valid : text.IsValidUTF8

inductive Entry where
  | file (bytes : ByteArray)
  | directory
  | missing
deriving DecidableEq

inductive LoadError where
  | notFound (path : String)
  | isDirectory (path : String)
  | tooLarge (path : String) (size : Nat)
  | invalidUtf8 (path : String) (offset : Nat)
deriving DecidableEq, Repr

namespace Document

def maxOffset : Nat := UInt32.size - 1

def ofString (path text : String) : Document := ⟨path, text.toUTF8, text.isValidUTF8⟩

instance : BEq Document where
  beq d e := Path.same d.path e.path && decide (d.text = e.text)

theorem beq_iff (d e : Document) :
    d == e ↔ Path.steps d.path = Path.steps e.path ∧ d.text = e.text := by
  rw [← Path.same_iff, ← decide_eq_true_iff (p := d.text = e.text)]
  exact Bool.and_eq_true_iff

def load (path : String) : Entry → Except LoadError Document
  | .missing => .error (.notFound path)
  | .directory => .error (.isDirectory path)
  | .file bytes =>
    if maxOffset < bytes.size then
      .error (.tooLarge path bytes.size)
    else if valid : bytes.IsValidUTF8 then
      .ok ⟨path, bytes, valid⟩
    else
      .error (.invalidUtf8 path (Text.validLength bytes))

theorem load_ofString (path text : String) (h : text.utf8ByteSize ≤ maxOffset) :
    load path (.file text.toUTF8) = .ok (ofString path text) := by
  have hs : ¬ maxOffset < text.utf8ByteSize := Nat.not_lt.mpr h
  have hv := text.isValidUTF8
  simp [load, hs, hv, ofString]

end Document

namespace LoadError

def quoted (path : String) : String := "\x60" ++ path ++ "\x60"

def message : LoadError → String
  | .notFound path => "failed to read " ++ quoted path
  | .isDirectory path => "failed to read " ++ quoted path
  | .tooLarge path size =>
    quoted path ++ " is " ++ toString size ++ " bytes; sources are limited to " ++
      toString Document.maxOffset ++ " bytes"
  | .invalidUtf8 path offset =>
    quoted path ++ " is not valid UTF-8 (first bad byte at offset " ++ toString offset ++ ")"

def cause : LoadError → Option String
  | .notFound _ => some "No such file or directory (os error 2)"
  | .isDirectory _ => some "Is a directory (os error 21)"
  | .tooLarge _ _ | .invalidUtf8 _ _ => none

def chain (e : LoadError) : List String := ["could not load source", e.message] ++ e.cause.toList

end LoadError

abbrev Folder := List (String × ByteArray)

namespace Folder

def entry (folder : Folder) (path : String) : Entry :=
  let steps := path.splitOn "/"
  if steps.head? = some "" then
    .missing
  else
    match steps.dropWhile Path.isIdle with
    | [] => .directory
    | [name] => (folder.lookup name).elim .missing .file
    | _ => .missing

end Folder

end ScriptLexer
