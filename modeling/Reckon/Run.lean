import Reckon.Program.Eval
import Reckon.Program.Parser
import Reckon.Token.Lexer

/-! Running a whole text: its tokens and its tree can be shown, and unless the tree is asked for,
its statements are executed. Nothing is executed before the whole text is read as a program. -/
namespace Reckon

structure Options where
  showTokens : Bool
  showTree : Bool
  echo : Bool
  pretty : Bool
deriving DecidableEq, Repr

namespace Options

def style (o : Options) : Style := if o.echo then .echo else .plain

def heading (o : Options) (title : String) : String :=
  let rule := "====================\n"
  if o.pretty then rule ++ title ++ "\n" ++ rule else ""

def tokenSection (o : Options) (tokens : List Token) : String :=
  if o.showTokens then o.heading "Tokens" ++ " ".intercalate (tokens.map Token.render) ++ "\n"
  else ""

end Options

def runProgram (o : Options) (program : List Stmt) : String × Except Halt (List Number) :=
  if o.showTree then
    match renderProgram? program with
    | none => (o.heading "Syntax Tree", .error .tooDeep)
    | some text => (o.heading "Syntax Tree" ++ text ++ "\n", .ok [])
  else
    let (output, values) := execute o.style program
    (o.heading "Output" ++ output, values.mapError .fault)

def runText (o : Options) (text : String) : String × Except Halt (List Number) :=
  let tokens := Lexer.tokenize text
  match Parser.parse tokens with
  | .error f => (o.tokenSection tokens, .error (.fault f))
  | .ok program =>
    let (output, values) := runProgram o program
    (o.tokenSection tokens ++ output, values)

end Reckon
