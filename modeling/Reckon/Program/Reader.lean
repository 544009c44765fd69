import Reckon.Program.Parser

/-! Reading tokens step by step. A reader keeps its place between steps; a step that fails leaves it
where the reading stopped. -/
namespace Reckon.Parser

/-- A list of tokens and a place in it. Around the place `depth` groups and signs are open, of which
`limit` are allowed. -/
structure Reader where
  tokens : List Token
  position : Nat
  depth : Nat
  limit : Int

namespace Reader

def ofTokens (tokens : List Token) (limit : Int) : Reader := ⟨tokens, 0, 0, limit⟩

def rest (r : Reader) : List Token := (body r.tokens).drop r.position

def room (r : Reader) : Nat := r.limit.toNat - r.depth

def peek (r : Reader) : Token := r.rest.headD (stop r.tokens)

def atEnd (r : Reader) : Bool := r.rest.isEmpty

def sees (r : Reader) (kinds : List Kind) : Bool := r.rest.head?.any (·.kind ∈ kinds)

def atRest (r : Reader) (rest : List Token) : Reader :=
  { r with position := (body r.tokens).length - rest.length }

def run {α : Type} (r : Reader) (reading : Reading α) : Except Fault α × Reader :=
  let outcome := reading r.rest
  (outcome.result, r.atRest outcome.rest)

def pull (r : Reader) : Token × Reader := (r.peek, r.atRest r.rest.tail)

def eat (r : Reader) (kind : Kind) : Bool × Reader :=
  if r.sees [kind] then (true, r.pull.2) else (false, r)

def consume (r : Reader) (kind : Kind) (text : String) : Except Fault Token × Reader :=
  r.run (expect (stop r.tokens) kind (.other text [kind]))

/-- Reads an expression with the operators of the last tiers only, `loosest` tiers left out. -/
def operation (r : Reader) (loosest : Nat) : Except Fault Expr × Reader :=
  r.run (tiered (operand (stop r.tokens) r.room) (tiers.drop loosest))

def primary (r : Reader) : Except Fault Expr × Reader :=
  r.run (Parser.primary (stop r.tokens) (nested (stop r.tokens) r.room))

def statement (r : Reader) : Except Fault Stmt × Reader :=
  r.run (Parser.statement (stop r.tokens) r.room)

def program (r : Reader) : Except Fault (List Stmt) × Reader :=
  r.run (Parser.program (stop r.tokens) r.room)

def lone (r : Reader) : Except Fault Expr × Reader :=
  r.run (Parser.lone (stop r.tokens) r.room)

end Reader
end Reckon.Parser
