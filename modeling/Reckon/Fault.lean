import Reckon.Text.Quoted
import Reckon.Token

/-! Faults of a program, each known by its cause. The wording is made here and nowhere else. -/
namespace Reckon

inductive Complaint where
  /-- No expression starts here. -/
  | operand
  | afterValue
  | afterExpression
  | closing
  | trailing
  | nesting
  | other (text : String) (expected : List Kind)
deriving DecidableEq, Repr

namespace Complaint

def text : Complaint → String
  | operand => "Expected expression"
  | afterValue => "Expected ';' after value"
  | afterExpression => "Expected ';' after expression"
  | closing => "Expected ')' after expression"
  | trailing => "Unexpected token after expression"
  | nesting => "Expression nests too deeply"
  | other text _ => text

def expected : Complaint → List Kind
  | operand => [.number, .leftParen]
  | afterValue => [.semicolon]
  | afterExpression => [.semicolon]
  | closing => [.rightParen]
  | trailing => [.eof]
  | nesting => [.number]
  | other _ expected => expected

end Complaint

inductive Trouble where
  | numeral (lexeme : String)
  | unaryOperator (kind : Kind)
  | binaryOperator (kind : Kind)
  | nesting
  | other (text : String)
deriving DecidableEq, Repr

namespace Trouble

def text : Trouble → String
  | numeral lexeme => "Invalid number literal " ++ Text.quoted lexeme
  | unaryOperator kind => "Unexpected unary operator " ++ kind.name
  | binaryOperator kind => "Unexpected binary operator " ++ kind.name
  | nesting => "Expression nests too deeply"
  | other text => text

end Trouble

inductive Fault where
  | general (text : String) (pos : Pos)
  /-- A token of kind `unknown` where a real one is needed. -/
  | lexical (token : Token)
  | grammar (complaint : Complaint) (actual : Token)
  | evaluation (trouble : Trouble) (token : Token)
deriving DecidableEq, Repr

namespace Fault

def text : Fault → String
  | general text _ => text
  | lexical token =>
    match token.error with
    | some error => if error = "" then "Unrecognized input" else error
    | none => "Unrecognized input"
  | grammar complaint _ => complaint.text
  | evaluation trouble _ => trouble.text

def pos : Fault → Pos
  | general _ pos => pos
  | lexical token => token.pos
  | grammar _ actual => actual.pos
  | evaluation _ token => token.pos

def located (f : Fault) : String :=
  if f.pos.line = 0 then f.text
  else f.text ++ " at line " ++ toString f.pos.line ++ ", col " ++ toString f.pos.col

def message (f : Fault) : String :=
  match f with
  | grammar complaint actual =>
    f.located ++ ": expected " ++ ", ".intercalate (complaint.expected.map Kind.name) ++ ", got " ++
      actual.kind.name
  | _ => f.located

def reject (complaint : Complaint) (token : Token) : Fault :=
  if token.kind = .unknown then lexical token else grammar complaint token

end Fault
end Reckon
