import Reckon.Program.Parser
import Reckon.Proofs.Program.Execution

/-! Tokens are read by their kinds and evaluated by their lexemes. A relabelling changes what tokens
carry besides their kind: the tree or the fault that is read from relabelled tokens is the relabelled
one, and where numerals keep their values, so is what comes of evaluating it. -/
namespace Reckon

structure Relabel where
  lexeme : String → String
  pos : Pos → Pos
  error : Option String → Option String

namespace Relabel
variable {α β : Type} (r : Relabel)

def token (t : Token) : Token := ⟨t.kind, r.lexeme t.lexeme, r.pos t.pos, r.error t.error⟩

def expr : Expr → Expr
  | .literal t => .literal (r.token t)
  | .unary op right => .unary (r.token op) (expr right)
  | .binary left op right => .binary (expr left) (r.token op) (expr right)

def stmt : Stmt → Stmt
  | .expression e => .expression (r.expr e)
  | .print keyword e => .print (r.pos keyword) (r.expr e)

def trouble : Trouble → Trouble
  | .numeral lexeme => .numeral (r.lexeme lexeme)
  | other => other

def fault : Fault → Fault
  | .general text pos => .general text (r.pos pos)
  | .lexical token => .lexical (r.token token)
  | .grammar complaint actual => .grammar complaint (r.token actual)
  | .evaluation trouble token => .evaluation (r.trouble trouble) (r.token token)

def halt : Halt → Halt
  | .tooDeep => .tooDeep
  | .fault f => .fault (r.fault f)

@[simp] theorem token_kind (t : Token) : (r.token t).kind = t.kind := rfl

theorem fault_reject (complaint : Complaint) (t : Token) :
    Fault.reject complaint (r.token t) = r.fault (Fault.reject complaint t) := by
  by_cases ht : t.kind = .unknown
  · simp [Fault.reject, ht, fault]
  · simp [Fault.reject, ht, fault]

section Reading
open Reckon.Parser

def outcome (f : α → α) : Outcome α → Outcome α
  | .done a rest => .done (f a) (rest.map r.token)
  | .stuck g rest => .stuck (r.fault g) (rest.map r.token)

def Carries (f : α → α) (reading reading' : Reading α) : Prop :=
  ∀ tokens, reading' (tokens.map r.token) = r.outcome f (reading tokens)

variable {r} {f : α → α} {g : β → β}

theorem outcome_bind {next next' : α → Reading β} (h : ∀ a, r.Carries g (next a) (next' (f a)))
    (o : Outcome α) : (r.outcome f o).bind next' = r.outcome g (o.bind next) := by
  cases o with
  | done a rest => exact h a rest
  | stuck fault rest => rfl

theorem outcome_map {k k' : α → β} (h : ∀ a, k' (f a) = g (k a)) (o : Outcome α) :
    (r.outcome f o).map k' = r.outcome g (o.map k) := by
  cases o with
  | done a rest => simp [outcome, Outcome.map, h]
  | stuck fault rest => rfl

theorem Carries.bind {reading reading' : Reading α} {next next' : α → Reading β}
    (h : r.Carries f reading reading') (hnext : ∀ a, r.Carries g (next a) (next' (f a))) :
    r.Carries g (fun ts => (reading ts).bind next) (fun ts => (reading' ts).bind next') := by
  intro tokens
  change (reading' (tokens.map r.token)).bind next' = _
  rw [h, outcome_bind hnext]

theorem Carries.map {reading reading' : Reading α} (h : r.Carries f reading reading')
    (k k' : α → β) (hk : ∀ a, k' (f a) = g (k a)) :
    r.Carries g (fun ts => (reading ts).map k) (fun ts => (reading' ts).map k') := by
  intro tokens
  change (reading' (tokens.map r.token)).map k' = _
  rw [h, outcome_map hk]

variable {stop : Token}

theorem carries_expect (kind : Kind) (complaint : Complaint) :
    r.Carries r.token (expect stop kind complaint) (expect (r.token stop) kind complaint) := by
  intro tokens
  cases tokens with
  | nil => simp [expect, outcome, fault_reject]
  | cons t tokens =>
    by_cases ht : t.kind = kind
    · simp [expect, ht, outcome]
    · simp [expect, ht, outcome, fault_reject]

theorem carries_foldTier {ops : List Kind} {operand operand' : Reading Expr}
    (h : r.Carries r.expr operand operand') (fuel : Nat) (left : Expr) :
    r.Carries r.expr (foldTier ops operand fuel left) (foldTier ops operand' fuel (r.expr left)) := by
  induction fuel generalizing left with
  | zero => exact fun tokens => rfl
  | succ fuel ih =>
    intro tokens
    cases tokens with
    | nil => rfl
    | cons t tokens =>
      by_cases ht : t.kind ∈ ops
      · simp only [List.map_cons, foldTier, token_kind, ht, if_true]
        exact h.bind (fun right => ih (.binary left t right)) tokens
      · simp [foldTier, ht, outcome]

theorem carries_tier {ops : List Kind} {operand operand' : Reading Expr}
    (h : r.Carries r.expr operand operand') :
    r.Carries r.expr (tier ops operand) (tier ops operand') := by
  refine h.bind fun left tokens => ?_
  rw [List.length_map]
  exact carries_foldTier h tokens.length left tokens

theorem carries_tiered {operand operand' : Reading Expr} (h : r.Carries r.expr operand operand')
    (tiers : List (List Kind)) : r.Carries r.expr (tiered operand tiers) (tiered operand' tiers) := by
  induction tiers with
  | nil => exact h
  | cons ops tiers ih => exact carries_tier ih

theorem carries_closed {reading reading' : Reading Expr} (h : r.Carries r.expr reading reading')
    (kind : Kind) (complaint : Complaint) :
    r.Carries r.expr
      (fun ts => (reading ts).bind fun e rest => (expect stop kind complaint rest).map fun _ => e)
      (fun ts => (reading' ts).bind fun e rest =>
        (expect (r.token stop) kind complaint rest).map fun _ => e) :=
  h.bind fun _ => (carries_expect kind complaint).map _ _ fun _ => rfl

theorem carries_primary {inside inside' : Option (Reading Expr)}
    (h : Option.Rel (r.Carries r.expr) inside inside') :
    r.Carries r.expr (primary stop inside) (primary (r.token stop) inside') := by
  intro tokens
  cases tokens with
  | nil => simp [primary, outcome, fault_reject]
  | cons t tokens =>
    by_cases hnumber : t.kind = .number
    · simp [primary, hnumber, outcome, expr]
    · by_cases hparen : t.kind = .leftParen
      · cases h with
        | none => simp [primary, hparen, outcome, fault]
        | some h =>
          simp only [List.map_cons, primary, token_kind, hparen]
          exact carries_closed (carries_tiered h tiers) .rightParen .closing tokens
      · simp [primary, hnumber, hparen, outcome, fault_reject]

theorem carries_signed {inside inside' : Option (Reading Expr)}
    (h : Option.Rel (r.Carries r.expr) inside inside') :
    r.Carries r.expr (signed stop inside) (signed (r.token stop) inside') := by
  intro tokens
  cases tokens with
  | nil => exact carries_primary h []
  | cons t tokens =>
    by_cases ht : t.kind ∈ Kind.signs
    · cases h with
      | none => simp [signed, ht, outcome, fault]
      | some h =>
        simp only [List.map_cons, signed, token_kind, ht, if_true]
        exact Carries.map h (Expr.unary t) (Expr.unary (r.token t)) (fun _ => rfl) tokens
    · have hprimary := @carries_primary r stop _ _ h (t :: tokens)
      simpa [signed, ht] using hprimary

theorem carries_operand (room : Nat) :
    r.Carries r.expr (operand stop room) (operand (r.token stop) room) := by
  induction room with
  | zero => exact carries_signed .none
  | succ room ih => exact carries_signed (.some ih)

theorem carries_expression (room : Nat) :
    r.Carries r.expr (expression stop room) (expression (r.token stop) room) :=
  carries_tiered (carries_operand room) tiers

theorem carries_ended (room : Nat) (complaint : Complaint) :
    r.Carries r.expr (ended stop room complaint) (ended (r.token stop) room complaint) :=
  carries_closed (carries_expression room) .semicolon complaint

theorem carries_statement (room : Nat) :
    r.Carries r.stmt (statement stop room) (statement (r.token stop) room) := by
  have hexpression : r.Carries r.stmt
      (fun ts => (ended stop room .afterExpression ts).map .expression)
      (fun ts => (ended (r.token stop) room .afterExpression ts).map .expression) :=
    (carries_ended room .afterExpression).map Stmt.expression Stmt.expression fun _ => rfl
  have hprint : ∀ p, r.Carries r.stmt
      (fun ts => (ended stop room .afterValue ts).map (.print p))
      (fun ts => (ended (r.token stop) room .afterValue ts).map (.print (r.pos p))) :=
    fun p => (carries_ended room .afterValue).map (Stmt.print p) (Stmt.print (r.pos p)) fun _ => rfl
  intro tokens
  cases tokens with
  | nil => exact hexpression []
  | cons t tokens =>
    by_cases ht : t.kind = .printWord
    · simp only [List.map_cons, statement, token_kind, ht, if_true]
      exact hprint t.pos tokens
    · simp only [List.map_cons, statement, token_kind, ht, if_false]
      exact hexpression (t :: tokens)

theorem carries_statements (room fuel : Nat) :
    r.Carries (List.map r.stmt) (statements stop room fuel)
      (statements (r.token stop) room fuel) := by
  induction fuel with
  | zero =>
    intro tokens
    cases tokens with
    | nil => rfl
    | cons t tokens => rfl
  | succ fuel ih =>
    intro tokens
    cases tokens with
    | nil => rfl
    | cons t tokens =>
      refine (carries_statement room).bind (fun s => ?_) (t :: tokens)
      exact ih.map (s :: ·) (r.stmt s :: ·) fun _ => rfl

theorem carries_program (room : Nat) :
    r.Carries (List.map r.stmt) (program stop room) (program (r.token stop) room) := by
  intro tokens
  rw [program, List.length_map]
  exact carries_statements room tokens.length tokens

theorem carries_lone (room : Nat) :
    r.Carries r.expr (lone stop room) (lone (r.token stop) room) := by
  refine (carries_expression room).bind fun e tokens => ?_
  cases tokens with
  | nil => rfl
  | cons t tokens => simp [outcome, fault_reject]

section Lists
variable (r)

structure KeepsEnd : Prop where
  lexeme : r.lexeme "" = ""
  error : r.error none = none
  origin : r.pos ⟨0, 0⟩ = ⟨0, 0⟩

variable {r}

theorem KeepsEnd.token_eofAt (h : r.KeepsEnd) (p : Pos) :
    r.token (Token.eofAt p) = Token.eofAt (r.pos p) := by
  simp [token, Token.eofAt, h.lexeme, h.error]

theorem body_tokens (r : Relabel) (tokens : List Token) :
    body (tokens.map r.token) = (body tokens).map r.token := by
  rw [body, List.takeWhile_map]
  rfl

theorem stop_tokens (h : r.KeepsEnd) (tokens : List Token) :
    Parser.stop (tokens.map r.token) = r.token (Parser.stop tokens) := by
  have hfind : (tokens.map r.token).find? (·.kind == .eof) =
      (tokens.find? (·.kind == .eof)).map r.token := by
    rw [List.find?_map]
    rfl
  rw [Parser.stop, Parser.stop, hfind]
  cases tokens.find? (·.kind == .eof) with
  | some t => rfl
  | none =>
    simp only [Option.map_none, h.token_eofAt, List.getLast?_map]
    cases tokens.getLast? with
    | some t => rfl
    | none => exact congrArg Token.eofAt h.origin.symm

theorem parse_tokens (h : r.KeepsEnd) (tokens : List Token) :
    parse (tokens.map r.token) = ((parse tokens).map (List.map r.stmt)).mapError r.fault := by
  rw [parse, parse, body_tokens, stop_tokens h, carries_program]
  cases program (Parser.stop tokens) defaultRoom (body tokens) <;> rfl

theorem parseExpression_tokens (h : r.KeepsEnd) (tokens : List Token) :
    parseExpression (tokens.map r.token) = ((parseExpression tokens).map r.expr).mapError r.fault := by
  rw [parseExpression, parseExpression, body_tokens, stop_tokens h, carries_lone]
  cases lone (Parser.stop tokens) defaultRoom (body tokens) <;> rfl

theorem parseLine_tokens (h : r.KeepsEnd) (tokens : List Token) :
    parseLine (tokens.map r.token) = ((parseLine tokens).map (List.map r.stmt)).mapError r.fault := by
  rw [parseLine, parseLine, parse_tokens h, parseExpression_tokens h]
  cases parse tokens with
  | ok p => rfl
  | error f =>
    cases f with
    | grammar complaint actual => cases parseExpression tokens <;> rfl
    | _ => rfl

end Lists

end Reading

section Value
variable {r}

theorem unaryValue_token (op : Token) (x : Number) :
    unaryValue (r.token op) x = (unaryValue op x).mapError r.fault := by
  unfold unaryValue
  rw [token_kind]
  split <;> rfl

theorem binaryValue_token (op : Token) (x y : Number) :
    binaryValue (r.token op) x y = (binaryValue op x y).mapError r.fault := by
  unfold binaryValue
  rw [token_kind]
  split <;> rfl

def KeepsNumerals (r : Relabel) : Prop :=
  ∀ lexeme, Numeral.number? (r.lexeme lexeme) = Numeral.number? lexeme

theorem literalValue_token (h : r.KeepsNumerals) (t : Token) :
    literalValue (r.token t) = (literalValue t).mapError r.fault := by
  have hlexeme := h t.lexeme
  unfold literalValue
  rw [token, hlexeme]
  split <;> rfl

theorem mapError_fault (x : Except Fault α) :
    (x.mapError r.fault).mapError .fault = (x.mapError .fault).mapError r.halt := by
  cases x <;> rfl

theorem value_expr (h : r.KeepsNumerals) (room : Nat) (e : Expr) :
    (r.expr e).value room = (e.value room).mapError r.halt := by
  induction e generalizing room with
  | literal t =>
    cases room with
    | zero => rfl
    | succ room => rw [expr, Expr.value, Expr.value, literalValue_token h, mapError_fault]
  | unary op right ih =>
    cases room with
    | zero => rfl
    | succ room =>
      have hright := ih room
      rw [expr]
      cases hvalue : right.value room with
      | error halt =>
        rw [hvalue] at hright
        rw [Expr.value_unary_error hvalue, Expr.value_unary_error hright]
        rfl
      | ok x =>
        rw [hvalue] at hright
        rw [Expr.value_unary_ok hvalue, Expr.value_unary_ok hright, unaryValue_token, mapError_fault]
  | binary left op right ihl ihr =>
    cases room with
    | zero => rfl
    | succ room =>
      have hleft := ihl room
      have hright := ihr room
      rw [expr]
      cases hvalue : left.value room with
      | error halt =>
        rw [hvalue] at hleft
        rw [Expr.value_binary_left hvalue, Expr.value_binary_left hleft]
        rfl
      | ok x =>
        rw [hvalue] at hleft
        cases hvalue' : right.value room with
        | error halt =>
          rw [hvalue'] at hright
          rw [Expr.value_binary_right hvalue hvalue', Expr.value_binary_right hleft hright]
          rfl
        | ok y =>
          rw [hvalue'] at hright
          rw [Expr.value_binary_ok hvalue hvalue', Expr.value_binary_ok hleft hright,
            binaryValue_token, mapError_fault]

theorem first_expr (e : Expr) : (r.expr e).first = r.token e.first := by
  induction e with
  | literal t => rfl
  | unary op right _ => rfl
  | binary left op right ih _ => exact ih

theorem expr_stmt (s : Stmt) : (r.stmt s).expr = r.expr s.expr := by
  cases s <;> rfl

theorem isPrint_stmt (s : Stmt) : (r.stmt s).isPrint = s.isPrint := by
  cases s <;> rfl

theorem value_stmt (h : r.KeepsNumerals) (s : Stmt) :
    (r.stmt s).value = s.value.mapError r.fault := by
  have hfirst : (r.stmt s).first = r.token s.first := by
    rw [Stmt.first, expr_stmt, first_expr]
    rfl
  rw [Stmt.value, Stmt.value, expr_stmt, value_expr h, hfirst]
  cases s.expr.value (Node.levels - 1) with
  | ok x => rfl
  | error halt => cases halt <;> rfl

/-- A relabelled program writes the same and has the same values, or fails at the relabelled token. -/
theorem execute_stmts (h : r.KeepsNumerals) (style : Style) (p : List Stmt) :
    execute style (p.map r.stmt) = ((execute style p).1, (execute style p).2.mapError r.fault) := by
  induction p with
  | nil => rfl
  | cons s p ih =>
    have hs := value_stmt h s
    rw [List.map_cons]
    cases hvalue : s.value with
    | error g =>
      rw [hvalue] at hs
      rw [execute_cons_error hvalue, execute_cons_error hs]
      rfl
    | ok x =>
      rw [hvalue] at hs
      rw [execute_cons_ok hvalue, execute_cons_ok hs, ih, isPrint_stmt]
      cases (execute style p).2 <;> rfl

end Value
end Relabel
end Reckon
