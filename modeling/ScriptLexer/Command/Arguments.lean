namespace ScriptLexer

inductive UsageError where
  | unknownOption (argument : String)
  | repeatedOption (argument : String)
  | unexpectedFile (argument : String)
  | emptyFile
  | noFile
deriving DecidableEq, Repr

inductive Command where
  | help
  | version
  | misuse (error : UsageError)
  | scan (file : String) (json pretty : Bool)
deriving DecidableEq, Repr

structure Arguments where
  file : Option String
  json : Bool
  pretty : Bool
deriving DecidableEq, Repr

namespace Arguments

def blank : Arguments := ⟨none, false, false⟩

abbrev Reading := Except Command Arguments

def readFile (a : Arguments) (argument : String) : Reading :=
  if argument = "" then .error (.misuse .emptyFile)
  else if a.file.isSome then .error (.misuse (.unexpectedFile argument))
  else .ok { a with file := argument }

/-- An option of one letter. Letters may be joined behind one dash, but both that exist decide the
command, so only the first one counts. -/
def readLetter (argument : String) : Char → Reading
  | 'h' => .error .help
  | 'V' => .error .version
  | _ => .error (.misuse (.unknownOption argument))

def readWord (a : Arguments) (argument : String) : Reading :=
  if argument = "--help" then .error .help
  else if argument = "--version" then .error .version
  else if argument = "--json" then
    if a.json then .error (.misuse (.repeatedOption argument)) else .ok { a with json := true }
  else if argument = "--pretty" then
    if a.pretty then .error (.misuse (.repeatedOption argument)) else .ok { a with pretty := true }
  else .error (.misuse (.unknownOption argument))

def readArgument (a : Arguments) (argument : String) : Reading :=
  match argument.toList with
  | '-' :: '-' :: _ => a.readWord argument
  | '-' :: letter :: _ => readLetter argument letter
  | _ => a.readFile argument

def read (a : Arguments) : List String → Reading
  | [] => .ok a
  | argument :: rest =>
    if argument = "--" then
      rest.foldlM readFile a
    else
      match a.readArgument argument with
      | .ok b => b.read rest
      | .error command => .error command

def command (a : Arguments) : Command :=
  match a.file with
  | some file => .scan file a.json a.pretty
  | none => .misuse .noFile

end Arguments

def Command.ofArguments (args : List String) : Command :=
  match Arguments.blank.read args with
  | .ok a => a.command
  | .error command => command

end ScriptLexer
