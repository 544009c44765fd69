import Reckon.Text.DecimalDigit
import Reckon.Text.Quoted

/-! The arguments of a command line: flags, of which short ones can be written together and long
ones can be shortened, and at most one source. -/
namespace Reckon.CommandLine

inductive Flag where
  | help | string | tokens | tree | echo | pretty | interactive | verbose
deriving DecidableEq, Repr

namespace Flag

def all : List Flag := [help, string, tokens, tree, echo, pretty, interactive, verbose]

def short? : Flag → Option Char
  | help => some 'h'
  | string => some 's'
  | tokens => some 't'
  | tree => some 'a'
  | echo => some 'e'
  | pretty => some 'p'
  | interactive => none
  | verbose => none

def long : Flag → String
  | help => "--help"
  | string => "--string"
  | tokens => "--tokens"
  | tree => "--ast"
  | echo => "--echo"
  | pretty => "--pretty"
  | interactive => "--repl"
  | verbose => "--verbose"

def display (flag : Flag) : String :=
  match flag.short? with
  | some c => "-" ++ c.toString ++ "/" ++ flag.long
  | none => flag.long

def ofShort? (c : Char) : Option Flag := all.find? (·.short? = some c)

def ofSpelling? : List Char → Option (Flag × Bool)
  | ['-', c] => (ofShort? c).map (·, false)
  | text => (all.find? (·.long.toList = text)).map (·, true)

end Flag

inductive Refusal where
  | ambiguous (argument : String)
  | ignoredValue (flag : Flag) (value : String)
  | unrecognized (arguments : List String)
deriving DecidableEq, Repr

def Refusal.message : Refusal → String
  | ambiguous argument =>
    "ambiguous option: " ++ argument ++ " could match " ++ ", ".intercalate (Flag.all.map Flag.long)
  | ignoredValue flag value =>
    "argument " ++ flag.display ++ ": ignored explicit argument " ++ Text.quoted value
  | unrecognized arguments => "unrecognized arguments: " ++ " ".intercalate arguments

inductive Argument where
  | plain (text : String)
  /-- The mark after which every argument is plain. -/
  | separator
  | unknown (text : String)
  /-- A flag in its long spelling or not, with a value attached or none. -/
  | flag (flag : Flag) (long : Bool) (value : Option (List Char))
deriving DecidableEq, Repr

def splitValue (text : List Char) : List Char × Option (List Char) :=
  match text.dropWhile (· != '=') with
  | [] => (text, none)
  | _ :: value => (text.takeWhile (· != '='), some value)

def isDecimalDigit (c : Char) : Bool := (Text.digitValue? c).isSome

def isUnsignedNumber (text : List Char) : Bool :=
  match text.dropWhile isDecimalDigit with
  | '.' :: fraction => endsWell fraction
  | _ => endsWell text
where
  endsWell (text : List Char) : Bool :=
    text.takeWhile isDecimalDigit ≠ [] &&
      -- One newline may follow the digits.
      (text.dropWhile isDecimalDigit = [] || text.dropWhile isDecimalDigit = ['\n'])

def classifyRest (text : List Char) : Argument :=
  if isUnsignedNumber (text.drop 1) || text.contains ' ' then .plain (String.ofList text)
  else .unknown (String.ofList text)

def classifyLong (text : List Char) : Except Refusal Argument :=
  let (name, value) := splitValue text
  match Flag.all.filter fun flag => name.isPrefixOf flag.long.toList with
  | [] => .ok (classifyRest text)
  | [flag] => .ok (.flag flag true value)
  | _ => .error (.ambiguous (String.ofList text))

def classifyShort (c : Char) (rest : List Char) : Argument :=
  match Flag.ofShort? c with
  | some flag => .flag flag false (some rest)
  | none => classifyRest ('-' :: c :: rest)

def classify (argument : String) : Except Refusal Argument :=
  let text := argument.toList
  match Flag.ofSpelling? text, splitValue text with
  | some (flag, long), _ => .ok (.flag flag long none)
  | none, (name, value) =>
    match Flag.ofSpelling? name, value, text with
    | some (flag, long), some value, _ => .ok (.flag flag long (some value))
    | _, _, '-' :: '-' :: _ => classifyLong text
    | _, _, '-' :: c :: rest => .ok (classifyShort c rest)
    | _, _, _ => .ok (.plain argument)

def classifyAll : List String → Except Refusal (List Argument)
  | [] => .ok []
  | "--" :: rest => .ok (.separator :: rest.map .plain)
  | argument :: rest => do
    let first ← classify argument
    let others ← classifyAll rest
    return first :: others

def cluster : Flag → List Char → Except Refusal (List Flag)
  | flag, [] => .ok [flag]
  | flag, c :: rest =>
    match Flag.ofShort? c with
    | some next => (cluster next rest).map (flag :: ·)
    | none => .error (.ignoredValue flag (String.ofList (c :: rest)))

def expand (flag : Flag) (long : Bool) : Option (List Char) → Except Refusal (List Flag)
  | none => .ok [flag]
  | some value =>
    if long || value = [] then .error (.ignoredValue flag (String.ofList value))
    else cluster flag value

inductive Request where
  | help
  | refuse (refusal : Refusal)
  | run (flags : List Flag) (source : Option String)
deriving DecidableEq, Repr

/-- Takes the arguments in order. The first plain one is the source, and a separator next to it is
passed over. `source` is `none` until it has been taken; `extras` are the arguments nobody wants. -/
def collect (flags : List Flag) (source : Option (Option String)) (extras : List String) :
    List Argument → Request
  | [] => if extras = [] then .run flags source.join else .refuse (.unrecognized extras)
  | .unknown text :: rest => collect flags source (extras ++ [text]) rest
  | .flag flag long value :: rest =>
    match expand flag long value with
    | .error refusal => .refuse refusal
    | .ok more =>
      if more.contains .help then .help else collect (flags ++ more) source extras rest
  | .plain text :: .separator :: rest =>
    match source with
    | none => collect flags (some (some text)) extras rest
    | some _ => collect flags source (extras ++ [text, "--"]) rest
  | .plain text :: rest =>
    match source with
    | none => collect flags (some (some text)) extras rest
    | some _ => collect flags source (extras ++ [text]) rest
  | .separator :: .plain text :: rest =>
    match source with
    | none => collect flags (some (some text)) extras rest
    | some _ => collect flags source (extras ++ ["--", text]) rest
  | .separator :: rest =>
    match source with
    | none => collect flags (some none) extras rest
    | some _ => collect flags source (extras ++ ["--"]) rest

def request (arguments : List String) : Request :=
  match classifyAll arguments with
  | .error refusal => .refuse refusal
  | .ok arguments => collect [] none [] arguments

end Reckon.CommandLine
