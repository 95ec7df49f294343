import ScriptLexer.Command.Run

namespace ScriptLexer

def lookUp (path : String) : IO Entry := do
  try
    return .file (← IO.FS.readBinFile path)
  catch e =>
    match e with
    | .noFileOrDirectory .. => return .missing
    | _ => return .directory

def Command.path : Command → Option String
  | .scan file _ _ => some file
  | _ => none

end ScriptLexer

open ScriptLexer in
def main (args : List String) : IO UInt32 := do
  let command := Command.ofArguments args
  let entry ← match command.path with
    | some file => lookUp file
    | none => pure .missing
  let outcome := command.run .boxed (fun _ => entry) (← (← IO.getStderr).isTty)
  for line in outcome.errors do
    IO.eprintln line
  let out ← IO.getStdout
  out.write outcome.output.toByteArray
  out.flush
  return outcome.exit.toUInt32
