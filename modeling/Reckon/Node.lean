import Reckon.Program
import Reckon.Text.Quoted

/-! Trees of any shape. A tree built by hand may put a statement below an operator, or hold nodes
that stand for nothing; every expression and every statement is such a tree too. -/
namespace Reckon

inductive Family where
  | node | expr | stmt
deriving DecidableEq, Repr

inductive Node where
  | bare (family : Family) (pos : Pos)
  | literal (token : Token)
  | unary (op : Token) (right : Node)
  | binary (left : Node) (op : Token) (right : Node)
  | expression (inner : Node)
  | print (keyword : Pos) (inner : Node)
deriving DecidableEq, Repr

def Expr.toNode : Expr → Node
  | literal token => .literal token
  | unary op right => .unary op right.toNode
  | binary left op right => .binary left.toNode op right.toNode

def Stmt.toNode : Stmt → Node
  | expression e => .expression e.toNode
  | print keyword e => .print keyword e.toNode

def Pos.orElse (p q : Pos) : Pos :=
  ⟨if p.line = 0 then q.line else p.line, if p.col = 0 then q.col else p.col⟩

def Family.name : Family → String
  | node => "ASTNode"
  | expr => "Expr"
  | stmt => "Stmt"

namespace Node

def className : Node → String
  | bare family _ => family.name
  | literal _ => "Literal"
  | unary _ _ => "Unary"
  | binary _ _ _ => "Binary"
  | expression _ => "ExpressionStmt"
  | print _ _ => "PrintStmt"

def label : Node → String
  | bare _ _ => "node"
  | literal _ => "literal"
  | unary _ _ => "unary"
  | binary _ _ _ => "binary"
  | expression _ => "expr_stmt"
  | print _ _ => "print"

def value? : Node → Option String
  | literal token => some token.lexeme
  | unary op _ => some op.lexeme
  | binary _ op _ => some op.lexeme
  | _ => none

def children : Node → List Node
  | bare _ _ => []
  | literal _ => []
  | unary _ right => [right]
  | binary left _ right => [left, right]
  | expression inner => [inner]
  | print _ inner => [inner]

def pos : Node → Pos
  | bare _ pos => pos
  | literal token => token.pos
  | unary op _ => op.pos
  | binary left _ _ => left.pos
  | expression inner => inner.pos
  | print keyword inner => keyword.orElse inner.pos

def first? : Node → Option Token
  | bare _ _ => none
  | literal token => some token
  | unary op _ => some op
  | binary left _ _ => left.first?
  | expression inner => inner.first?
  | print _ inner => inner.first?

def same : Node → Node → Bool
  | bare f _, bare g _ => f == g
  -- The places of tokens are not compared, and neither are their kinds.
  | literal s, literal t => s.lexeme == t.lexeme
  | unary s a, unary t b => s.lexeme == t.lexeme && same a b
  | binary a s b, binary c t d => s.lexeme == t.lexeme && same a c && same b d
  | expression a, expression b => same a b
  | print _ a, print _ b => same a b
  | _, _ => false

/-- How many levels of a tree can be walked down. -/
def levels : Nat := 330

def same? : (room : Nat) → Node → Node → Option Bool
  | 0, _, _ => none
  | _ + 1, bare f _, bare g _ => some (f == g)
  | _ + 1, literal s, literal t => some (s.lexeme == t.lexeme)
  | room + 1, unary s a, unary t b =>
    if s.lexeme == t.lexeme then same? room a b else some false
  | room + 1, binary a s b, binary c t d =>
    if s.lexeme == t.lexeme then
      match same? room a c with
      | some true => same? room b d
      | answer => answer
    else some false
  | room + 1, expression a, expression b => same? room a b
  | room + 1, print _ a, print _ b => same? room a b
  | _ + 1, _, _ => some false

inductive Obstacle where
  | tooDeep
  | bare (family : Family)
deriving DecidableEq, Repr

def Obstacle.message? : Obstacle → Option String
  | tooDeep => none
  | bare .node => some "'ASTNode' object has no attribute 'accept'"
  | bare family => some (family.name ++ " does not accept visitors")

inductive Outline where
  | node (kind : String) (value : Option String) (pos : Pos) (children : List Outline)

def outline? : (room : Nat) → Node → Option Outline
  | 0, _ => none
  | room + 1, node => do
    let children ← node.children.mapM (outline? room)
    return .node node.label node.value? node.pos children

def describe? : (room : Nat) → Node → Option String
  | 0, _ => none
  | room + 1, node => do
    let children ← node.children.mapM (describe? room)
    let value := (node.value?.map fun lexeme => "value=" ++ Text.quoted lexeme).toList
    let inner := if children = [] then [] else ["children=[" ++ ", ".intercalate children ++ "]"]
    return node.className ++ "(" ++ ", ".intercalate (node.label :: value ++ inner) ++ ")"

def render : (room : Nat) → Node → Except Obstacle String
  | 0, _ => .error .tooDeep
  | _ + 1, bare family _ => .error (.bare family)
  | _ + 1, literal token => .ok token.lexeme
  | room + 1, unary op right => do
    let right ← render room right
    return "(" ++ op.lexeme ++ " " ++ right ++ ")"
  | room + 1, binary left op right => do
    let left ← render room left
    let right ← render room right
    return "(" ++ op.lexeme ++ " " ++ left ++ " " ++ right ++ ")"
  | room + 1, expression inner => do
    let inner ← render room inner
    return inner ++ ";"
  | room + 1, print _ inner => do
    let inner ← render room inner
    return "print " ++ inner ++ ";"

end Node

def Expr.render? (e : Expr) : Option String := (e.toNode.render Node.levels).toOption

def Stmt.render? (s : Stmt) : Option String := (s.toNode.render Node.levels).toOption

def renderProgram? (program : List Stmt) : Option String :=
  (program.mapM Stmt.render?).map ("\n".intercalate ·)

end Reckon
