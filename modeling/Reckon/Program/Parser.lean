import Reckon.Fault
import Reckon.Program

/-! Reading expressions and statements from tokens. Operators of one tier are folded to the left;
the operands of a tier are what the tighter tiers read. Groups and signs use up `room`, which bounds
the recursion. -/
namespace Reckon.Parser

inductive Outcome (α : Type) where
  | done (value : α) (rest : List Token)
  | stuck (fault : Fault) (rest : List Token)

namespace Outcome
variable {α β : Type}

def rest : Outcome α → List Token
  | done _ rest => rest
  | stuck _ rest => rest

def result : Outcome α → Except Fault α
  | done value _ => .ok value
  | stuck fault _ => .error fault

def bind : Outcome α → (α → List Token → Outcome β) → Outcome β
  | done value rest, f => f value rest
  | stuck fault rest, _ => stuck fault rest

def map (f : α → β) : Outcome α → Outcome β
  | done value rest => done (f value) rest
  | stuck fault rest => stuck fault rest

end Outcome

abbrev Reading (α : Type) := List Token → Outcome α

def tiers : List (List Kind) :=
  [Kind.equalities, Kind.comparisons, Kind.sums, Kind.products]

/-- Reads a token of one kind. `stop` is the token met when no other is left. -/
def expect (stop : Token) (kind : Kind) (complaint : Complaint) : Reading Token
  | [] => .stuck (Fault.reject complaint stop) []
  | t :: rest =>
    if t.kind = kind then .done t rest else .stuck (Fault.reject complaint t) (t :: rest)

-- Each round reads a token, so the number of tokens is fuel enough.
def foldTier (ops : List Kind) (operand : Reading Expr) :
    (fuel : Nat) → (left : Expr) → Reading Expr
  | 0, left, rest => .done left rest
  | _ + 1, left, [] => .done left []
  | fuel + 1, left, t :: rest =>
    if t.kind ∈ ops then
      (operand rest).bind fun right rest => foldTier ops operand fuel (.binary left t right) rest
    else .done left (t :: rest)

def tier (ops : List Kind) (operand : Reading Expr) : Reading Expr := fun tokens =>
  (operand tokens).bind fun left rest => foldTier ops operand rest.length left rest

def tiered (operand : Reading Expr) : List (List Kind) → Reading Expr
  | [] => operand
  | ops :: tighter => tier ops (tiered operand tighter)

/-- Reads a number or a group. `nested` reads operands one level further in, if there is room. -/
def primary (stop : Token) (nested : Option (Reading Expr)) : Reading Expr
  | [] => .stuck (Fault.reject .operand stop) []
  | t :: rest =>
    if t.kind = .number then .done (.literal t) rest
    else if t.kind = .leftParen then
      match nested with
      | none => .stuck (.grammar .nesting t) rest
      | some operand =>
        (tiered operand tiers rest).bind fun e rest =>
          (expect stop .rightParen .closing rest).map fun _ => e
    else .stuck (Fault.reject .operand t) (t :: rest)

def signed (stop : Token) (nested : Option (Reading Expr)) : Reading Expr
  | [] => primary stop nested []
  | t :: rest =>
    if t.kind ∈ Kind.signs then
      match nested with
      | none => .stuck (.grammar .nesting t) rest
      | some operand => (operand rest).map (.unary t)
    else primary stop nested (t :: rest)

def operand (stop : Token) : (room : Nat) → Reading Expr
  | 0 => signed stop none
  | room + 1 => signed stop (some (operand stop room))

def nested (stop : Token) : (room : Nat) → Option (Reading Expr)
  | 0 => none
  | room + 1 => some (operand stop room)

def expression (stop : Token) (room : Nat) : Reading Expr :=
  tiered (operand stop room) tiers

def ended (stop : Token) (room : Nat) (complaint : Complaint) : Reading Expr := fun tokens =>
  (expression stop room tokens).bind fun e rest =>
    (expect stop .semicolon complaint rest).map fun _ => e

def statement (stop : Token) (room : Nat) : Reading Stmt
  | [] => (ended stop room .afterExpression []).map .expression
  | t :: rest =>
    if t.kind = .printWord then (ended stop room .afterValue rest).map (.print t.pos)
    else (ended stop room .afterExpression (t :: rest)).map .expression

-- Each statement holds a token, so here too the number of tokens is fuel enough.
def statements (stop : Token) (room : Nat) : (fuel : Nat) → Reading (List Stmt)
  | _, [] => .done [] []
  | 0, rest => .done [] rest
  | fuel + 1, rest =>
    (statement stop room rest).bind fun s rest => (statements stop room fuel rest).map (s :: ·)

def program (stop : Token) (room : Nat) : Reading (List Stmt) := fun tokens =>
  statements stop room tokens.length tokens

def lone (stop : Token) (room : Nat) : Reading Expr := fun tokens =>
  (expression stop room tokens).bind fun e rest =>
    match rest with
    | [] => .done e []
    | t :: rest => .stuck (Fault.reject .trailing t) (t :: rest)

def defaultRoom : Nat := 64

def body (tokens : List Token) : List Token :=
  tokens.takeWhile (·.kind != .eof)

def stop (tokens : List Token) : Token :=
  match tokens.find? (·.kind == .eof) with
  | some t => t
  | none => Token.eofAt ((tokens.getLast?.map Token.pos).getD ⟨0, 0⟩)

def parse (tokens : List Token) : Except Fault (List Stmt) :=
  (program (stop tokens) defaultRoom (body tokens)).result

def parseExpression (tokens : List Token) : Except Fault Expr :=
  (lone (stop tokens) defaultRoom (body tokens)).result

/-- The program that a typed line spells: a lone expression may go without its semicolon. If both
readings fail, the fault of the first is reported. -/
def parseLine (tokens : List Token) : Except Fault (List Stmt) :=
  match parse tokens with
  | .error (.grammar complaint actual) =>
    match parseExpression tokens with
    | .ok e => .ok [.expression e]
    | .error _ => .error (.grammar complaint actual)
  | outcome => outcome

end Reckon.Parser
