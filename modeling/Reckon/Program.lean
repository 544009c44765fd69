import Reckon.Token

/-! Expressions and statements as they are read from tokens. -/
namespace Reckon

inductive Expr where
  | literal (token : Token)
  | unary (op : Token) (right : Expr)
  | binary (left : Expr) (op : Token) (right : Expr)
deriving DecidableEq, Repr

namespace Expr

def first : Expr → Token
  | literal token => token
  | unary op _ => op
  | binary left _ _ => left.first

def pos (e : Expr) : Pos := e.first.pos

end Expr

inductive Stmt where
  | expression (e : Expr)
  | print (keyword : Pos) (e : Expr)
deriving DecidableEq, Repr

namespace Stmt

def expr : Stmt → Expr
  | expression e => e
  | print _ e => e

def first (s : Stmt) : Token := s.expr.first

end Stmt
end Reckon
