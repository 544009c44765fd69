import Reckon.Program.Eval

/-! Evaluation of trees of any shape. A statement below an operator has a value and writes it, so a
walk keeps what was written before it stopped. -/
namespace Reckon.Node

inductive Stop where
  | obstacle (obstacle : Obstacle)
  | fault (fault : Fault)
  /-- The place of a fault is asked of a tree without a token. -/
  | tokenless
deriving DecidableEq, Repr

abbrev Walk := ExceptT Stop (StateM String)

def Walk.write (text : String) : Walk Unit := modify (· ++ text)

def Walk.ofValue (x : Except Fault Number) : Walk Number :=
  match x with
  | .ok x => pure x
  | .error f => throw (.fault f)

def Walk.outcome (walk : Walk Number) : String × Except Stop Number :=
  let (ending, output) := walk.run.run ""
  (output, ending)

def evaluate (style : Style) : (room : Nat) → Node → Walk Number
  | 0, _ => throw (.obstacle .tooDeep)
  | _ + 1, bare family _ => throw (.obstacle (.bare family))
  | _ + 1, literal token => Walk.ofValue (literalValue token)
  | room + 1, unary op right => do
    let x ← evaluate style room right
    Walk.ofValue (unaryValue op x)
  | room + 1, binary left op right => do
    let x ← evaluate style room left
    let y ← evaluate style room right
    Walk.ofValue (binaryValue op x y)
  | room + 1, expression inner => do
    let x ← evaluate style room inner
    Walk.write (style.written false x)
    return x
  | room + 1, print _ inner => do
    let x ← evaluate style room inner
    Walk.write (style.written true x)
    return x

def execute (style : Style) (node : Node) : Walk Number :=
  tryCatch (evaluate style levels node) fun stop =>
    match stop, node.first? with
    | .obstacle .tooDeep, some token => throw (.fault (.evaluation .nesting token))
    | .obstacle .tooDeep, none => throw .tokenless
    | stop, _ => throw stop

end Reckon.Node
