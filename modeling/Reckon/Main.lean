import Reckon.CommandLine

/-! The program: arguments, standard input and files in; output, errors and a status out. -/
namespace Reckon

/-- Writes a turn and reads the next line until the session ends. -/
partial def converse (input output : IO.FS.Stream) (verbose : Bool) : IO Unit := do
  output.putStr Session.prompt
  output.flush
  let line ← input.getLine
  if line.isEmpty then
    output.putStr ("\n" ++ Session.farewell)
  else
    match Session.respond verbose line with
    | .leave text => output.putStr text
    | .stay text verbose =>
      output.putStr text
      converse input output verbose

def readFiles : Option String → IO Files
  | none => return fun _ => .error .missing
  | some name => do
    let found ←
      try
        pure (.ok (← IO.FS.readBinFile name))
      catch
        | .inappropriateType none _ _ => pure (.error .isFolder)
        | .inappropriateType (some _) _ _ => pure (.error .notFolder)
        | .invalidArgument _ _ _ => pure (.error .nameTooLong)
        | _ => pure (.error .missing)
    return fun _ => found

end Reckon

open Reckon in
def main (arguments : List String) : IO UInt32 := do
  let output ← IO.getStdout
  let errors ← IO.getStderr
  let request := CommandLine.request arguments
  match CommandLine.perform (← readFiles (CommandLine.file? request)) request with
  | .session verbose =>
    output.putStr Session.greeting
    converse (← IO.getStdin) output verbose
    return 0
  | .finish text complaint status =>
    output.putStr text
    errors.putStr complaint
    match status with
    | .ok code => return code.toUInt32
    | .error e =>
      errors.putStrLn (e.message?.getD "The source cannot be run.")
      return 1
