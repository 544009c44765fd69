import Reckon.CommandLine
import Reckon.Proofs.Grammar.FirstFault
import Reckon.Proofs.Run.Sequence

/-! The status of a command that runs a text. It tells what became of the text: refused as a whole
before anything was run, stopped at a statement without a value, or run to its end. -/
namespace Reckon

section Parse
open Lexer Reckon.Parser
variable {tokens : List Token} {text : String} {f : Fault}

end Parse

namespace CommandLine
open Lexer Reckon.Parser
variable {arguments : List String} {flags : List Flag} {text : String}
  {p : List Stmt} {f : Fault} {written output errors : String} {values : List Number}
  {status : Except ScriptError Nat}

section Source
variable (files : Files)

end Source

end CommandLine
end Reckon
