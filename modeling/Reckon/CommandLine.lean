import Reckon.CommandLine.Arguments
import Reckon.Script
import Reckon.Session

/-! The command: it holds a session, or runs one source and reports how that ended. -/
namespace Reckon.CommandLine

def usage : String :=
  "usage: tinylox [-h] [-s] [-t] [-a] [-e] [-p] [--repl] [--verbose] [source]\n"

def helpText : String :=
  usage ++
  "\n" ++
  "positional arguments:\n" ++
  "  source        Filename or raw source (with -s)\n" ++
  "\n" ++
  "options:\n" ++
  "  -h, --help    show this help message and exit\n" ++
  "  -s, --string  Interpret source as literal string\n" ++
  "  -t, --tokens  Print the token stream\n" ++
  "  -a, --ast     Print the syntax tree, do not evaluate\n" ++
  "  -e, --echo    Print the value of every statement\n" ++
  "  -p, --pretty  Show output with banners\n" ++
  "  --repl        Launch interactive REPL instead of running a source\n" ++
  "  --verbose     Verbose REPL mode (if --repl)\n"

inductive Action where
  | session (verbose : Bool)
  | finish (output errors : String) (status : Except ScriptError Nat)

def options (flags : List Flag) : Options :=
  ⟨flags.contains .tokens, flags.contains .tree, flags.contains .echo, flags.contains .pretty⟩

def runSource (files : Files) (flags : List Flag) (source : String) : Action :=
  match run (options flags) files (flags.contains .string) source with
  | (output, .ok _) =>
    .finish (output ++ if flags.contains .tree || flags.contains .echo then "" else "\n") "" (.ok 0)
  | (output, .error (.halt (.fault (.evaluation trouble token)))) =>
    .finish (output ++ "\n")
      ("[error] >>> " ++ (Fault.evaluation trouble token).message ++ "\n") (.ok 70)
  | (output, .error (.halt (.fault f))) =>
    .finish output ("[error] >>> " ++ f.message ++ "\n") (.ok 65)
  | (output, .error e) => .finish output "" (.error e)

def perform (files : Files) : Request → Action
  | .help => .finish helpText "" (.ok 0)
  | .refuse refusal => .finish "" (usage ++ "tinylox: error: " ++ refusal.message ++ "\n") (.ok 2)
  | .run flags source =>
    match flags.contains .interactive, source with
    | false, some source => runSource files flags source
    | _, _ => .session (flags.contains .verbose)

def file? : Request → Option String
  | .run flags (some source) =>
    if flags.contains .string || flags.contains .interactive then none else some source
  | _ => none

structure Ending where
  pieces : List String
  errors : String
  status : Except ScriptError Nat

def command (files : Files) (lines : List String) (arguments : List String) : Ending :=
  match perform files (request arguments) with
  | .session verbose => ⟨(Session.hold verbose lines).pieces, "", .ok 0⟩
  | .finish output errors status => ⟨[output], errors, status⟩

end Reckon.CommandLine
