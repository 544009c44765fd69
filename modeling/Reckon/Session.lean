import Reckon.Run
import Reckon.Text.Blank

/-! A session of typed lines. Each line is run by itself; what it writes depends on the line and on
whether the session is verbose, and on nothing else. -/
namespace Reckon

def showTrees : List Stmt → String × Bool
  | [] => ("", true)
  | s :: rest =>
    match s.render? with
    | none => ("", false)
    | some text =>
      let (shown, complete) := showTrees rest
      ("[ast] >>> " ++ text ++ "\n" ++ shown, complete)

def endLine (output : String) : String :=
  match Text.trimEnd (· == '\n') output.toList with
  | [] => ""
  | text => String.ofList text ++ "\n"

def runLine (verbose : Bool) (line : String) : String × Except Halt (List Number) :=
  let tokens := Lexer.tokenize line
  let shownTokens :=
    if verbose then "[tokens] >>> [" ++ ", ".intercalate (tokens.map Token.render) ++ "]\n" else ""
  match Parser.parseLine tokens with
  | .error f => (shownTokens, .error (.fault f))
  | .ok program =>
    let (shown, complete) := if verbose then showTrees program else ("", true)
    if complete then
      let (output, values) := execute .echo program
      (shownTokens ++ shown ++ endLine output, values.mapError .fault)
    else (shownTokens ++ shown, .error .tooDeep)

namespace Session

def greeting : String := "tinylox REPL. Type 'exit' or 'quit' to leave.\n"

def prompt : String := ">>> "

def farewell : String := "Exiting tinylox REPL.\n"

inductive Turn where
  | stay (output : String) (verbose : Bool)
  | leave (output : String)
deriving DecidableEq, Repr

def report : Halt → String
  | .fault f => "[error] >>>\n" ++ f.message ++ "\n"
  | .tooDeep => "[error] >>>\n<traceback RecursionError>\n\n"

def respond (verbose : Bool) (line : String) : Turn :=
  let text := Text.trim line
  if text = "exit" ∨ text = "quit" then .leave farewell
  else if text = "" ∨ ['/', '/'].isPrefixOf text.toList then .stay "" verbose
  else if text.toList.map Char.toLower = "verbose-mode".toList then
    .stay ("[mode] >>> Verbose mode " ++ (if verbose then "OFF" else "ON") ++ "\n") !verbose
  else
    match runLine verbose text with
    | (output, .ok _) => .stay output verbose
    | (output, .error halt) => .stay (output ++ report halt) verbose

structure Transcript where
  pieces : List String
  unread : Nat
deriving DecidableEq, Repr

def converse : (verbose : Bool) → List String → Transcript
  | _, [] => ⟨["\n" ++ farewell], 0⟩
  | verbose, line :: rest =>
    match respond verbose line with
    | .leave output => ⟨[output], rest.length⟩
    | .stay output verbose =>
      let after := converse verbose rest
      ⟨(output ++ prompt) :: after.pieces, after.unread⟩

def hold (verbose : Bool) (lines : List String) : Transcript :=
  let after := converse verbose lines
  ⟨(greeting ++ prompt) :: after.pieces, after.unread⟩

end Session
end Reckon
