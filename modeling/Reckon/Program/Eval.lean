import Reckon.Fault
import Reckon.Node
import Reckon.Number.Numeral

/-! The values of expressions and what statements write. Operands come before their operator and the
left one before the right one, so the first fault in that order is the one reported. -/
namespace Reckon

def literalValue (token : Token) : Except Fault Number :=
  match Numeral.number? token.lexeme with
  | some x => .ok x
  | none => .error (.evaluation (.numeral token.lexeme) token)

def unaryValue (op : Token) (x : Number) : Except Fault Number :=
  match op.kind with
  | .plus => .ok x
  | .minus => .ok x.neg
  | kind => .error (.evaluation (.unaryOperator kind) op)

def binaryValue (op : Token) (x y : Number) : Except Fault Number :=
  match op.kind with
  | .plus => .ok (x.add y)
  | .minus => .ok (x.sub y)
  | .star => .ok (x.mul y)
  | .slash => .ok (x.div y)
  -- Comparisons are read but have no value.
  | kind => .error (.evaluation (.binaryOperator kind) op)

inductive Halt where
  | tooDeep
  | fault (fault : Fault)
deriving DecidableEq, Repr

def Expr.value : (room : Nat) → Expr → Except Halt Number
  | 0, _ => .error .tooDeep
  | _ + 1, literal token => (literalValue token).mapError .fault
  | room + 1, unary op right => do
    let x ← right.value room
    (unaryValue op x).mapError .fault
  | room + 1, binary left op right => do
    let x ← left.value room
    let y ← right.value room
    (binaryValue op x y).mapError .fault

inductive Style where
  | plain
  | echo
deriving DecidableEq, Repr

def Style.written (style : Style) (printed : Bool) (x : Number) : String :=
  match style, printed with
  | echo, _ => x.text ++ "\n"
  | plain, true => x.text
  | plain, false => ""

namespace Stmt

def isPrint : Stmt → Bool
  | expression _ => false
  | print _ _ => true

/-- The value of a statement, which is one level above its expression. A tree too deep is a fault at
its first token. -/
def value (s : Stmt) : Except Fault Number :=
  match s.expr.value (Node.levels - 1) with
  | .ok x => .ok x
  | .error .tooDeep => .error (.evaluation .nesting s.first)
  | .error (.fault f) => .error f

def execute (style : Style) (s : Stmt) : String × Except Fault Number :=
  match s.value with
  | .ok x => (style.written s.isPrint x, .ok x)
  | .error f => ("", .error f)

end Stmt

def execute (style : Style) : List Stmt → String × Except Fault (List Number)
  | [] => ("", .ok [])
  | s :: rest =>
    match s.execute style with
    | (output, .error f) => (output, .error f)
    | (output, .ok x) =>
      let after := execute style rest
      (output ++ after.1, after.2.map (x :: ·))

end Reckon
