import Reckon.Proofs.Grammar.Tree
import Reckon.Proofs.Number.Numeral
import Reckon.Proofs.Program.Execution
import Reckon.Proofs.Token.Spelling

/-! When a program read from a text fails. Its numbers can all be read and its signs all have a
meaning, so what is left are operators that compare, which have no value, and trees too deep to be
walked. -/
namespace Reckon

def relational : List Kind :=
  [.bangEqual, .equalEqual, .greater, .greaterEqual, .less, .lessEqual]

namespace Expr
variable {e : Expr} {room : Nat}

def height : Expr → Nat
  | literal _ => 1
  | unary _ right => right.height + 1
  | binary left _ right => max left.height right.height + 1

def operators : Expr → List Token
  | literal _ => []
  | unary _ right => right.operators
  | binary left op right => left.operators ++ right.operators ++ [op]

def unsupported? (e : Expr) : Option Token := e.operators.find? (·.kind ∈ relational)

def Regular : Expr → Prop
  | literal token => ∃ x, Numeral.number? token.lexeme = some x
  | unary op right => op.kind ∈ Kind.signs ∧ right.Regular
  | binary left op right => op.kind ∈ Parser.tiers.flatten ∧ left.Regular ∧ right.Regular

inductive Verdict (e : Expr) (room : Nat) : Except Halt Number → Prop
  | value (x : Number) : e.unsupported? = none → Verdict e room (.ok x)
  | unsupported (op : Token) : e.unsupported? = some op →
      Verdict e room (.error (.fault (.evaluation (.binaryOperator op.kind) op)))
  | tooDeep : room < e.height → Verdict e room (.error .tooDeep)

theorem exists_unaryValue {op : Token} (h : op.kind ∈ Kind.signs) (x : Number) :
    ∃ y, unaryValue op x = .ok y := by
  obtain hplus | hminus := Parser.mem_signs.mp h
  · exact ⟨x, by simp [unaryValue, hplus]⟩
  · exact ⟨x.neg, by simp [unaryValue, hminus]⟩

theorem binaryValue_relational {op : Token} (h : op.kind ∈ relational) (x y : Number) :
    binaryValue op x y = .error (.evaluation (.binaryOperator op.kind) op) := by
  simp only [relational, List.mem_cons, List.not_mem_nil, or_false] at h
  obtain h | h | h | h | h | h := h <;> simp [binaryValue, h]

theorem exists_binaryValue {op : Token} (h : op.kind ∈ Parser.tiers.flatten)
    (hop : op.kind ∉ relational) (x y : Number) : ∃ z, binaryValue op x y = .ok z := by
  have hall : ∀ k ∈ Parser.tiers.flatten, k ∉ relational → k ∈ Kind.arithmetic := by decide
  have harithmetic := hall _ h hop
  simp only [Kind.arithmetic, Kind.sums, Kind.products, List.cons_append, List.nil_append,
    List.mem_cons, List.not_mem_nil, or_false] at harithmetic
  obtain h | h | h | h := harithmetic
  · exact ⟨x.add y, by simp [binaryValue, h]⟩
  · exact ⟨x.sub y, by simp [binaryValue, h]⟩
  · exact ⟨x.mul y, by simp [binaryValue, h]⟩
  · exact ⟨x.div y, by simp [binaryValue, h]⟩

theorem unsupported?_binary (left : Expr) (op : Token) (right : Expr) :
    (binary left op right).unsupported? =
      (left.unsupported?.or right.unsupported?).or
        (if op.kind ∈ relational then some op else none) := by
  by_cases hop : op.kind ∈ relational <;>
    simp [unsupported?, operators, List.find?_append, hop]

theorem verdict_unary {op : Token} {right : Expr} (hop : op.kind ∈ Kind.signs)
    (h : Verdict right room (right.value room)) :
    Verdict (unary op right) (room + 1) ((unary op right).value (room + 1)) := by
  generalize hvalue : right.value room = found at h
  cases h with
  | value x hnone =>
    obtain ⟨y, hy⟩ := exists_unaryValue hop x
    rw [value_unary_ok hvalue, hy]
    exact .value y hnone
  | unsupported first hsome =>
    rw [value_unary_error hvalue]
    exact .unsupported first hsome
  | tooDeep hdeep =>
    rw [value_unary_error hvalue]
    exact .tooDeep (Nat.succ_lt_succ hdeep)

theorem verdict_binary {left : Expr} {op : Token} {right : Expr}
    (hop : op.kind ∈ Parser.tiers.flatten) (hl : Verdict left room (left.value room))
    (hr : Verdict right room (right.value room)) :
    Verdict (binary left op right) (room + 1) ((binary left op right).value (room + 1)) := by
  have hfirst := unsupported?_binary left op right
  generalize hleft : left.value room = found at hl
  cases hl with
  | unsupported first hsome =>
    rw [value_binary_left hleft]
    exact .unsupported first (by simp [hfirst, hsome])
  | tooDeep hdeep =>
    rw [value_binary_left hleft]
    exact .tooDeep (by simp only [height]; omega)
  | value x hnone =>
    generalize hright : right.value room = found at hr
    cases hr with
    | unsupported first hsome =>
      rw [value_binary_right hleft hright]
      exact .unsupported first (by simp [hfirst, hnone, hsome])
    | tooDeep hdeep =>
      rw [value_binary_right hleft hright]
      exact .tooDeep (by simp only [height]; omega)
    | value y hnone' =>
      rw [value_binary_ok hleft hright]
      by_cases hrelational : op.kind ∈ relational
      · rw [binaryValue_relational hrelational]
        exact .unsupported op (by simp [hfirst, hnone, hnone', hrelational])
      · obtain ⟨z, hz⟩ := exists_binaryValue hop hrelational x y
        rw [hz]
        exact .value z (by simp [hfirst, hnone, hnone', hrelational])

theorem value_verdict (h : e.Regular) (room : Nat) : Verdict e room (e.value room) := by
  induction e generalizing room with
  | literal token =>
    obtain ⟨x, hx⟩ := h
    cases room with
    | zero => exact .tooDeep (by simp [height])
    | succ room =>
      have hvalue : (literal token).value (room + 1) = .ok x := by
        simp [value, literalValue, hx, Except.mapError]
      rw [hvalue]
      exact .value x rfl
  | unary op right ih =>
    cases room with
    | zero => exact .tooDeep (by simp [height])
    | succ room => exact verdict_unary h.1 (ih h.2 room)
  | binary left op right ihl ihr =>
    cases room with
    | zero => exact .tooDeep (by simp [height])
    | succ room => exact verdict_binary h.1 (ihl h.2.1 room) (ihr h.2.2 room)

end Expr

def Token.Legible (t : Token) : Prop := t.kind = .number → ∃ x, Numeral.number? t.lexeme = some x

theorem Lexer.tokens_legible (p : Pos) (text : List Char) :
    ∀ t ∈ Lexer.tokens p text, t.Legible := by
  intro t ht hnumber
  have hspelled := Lexer.tokens_spelled p text t ht (by simp [hnumber]) (by simp [hnumber])
  rw [Token.Spelled, hnumber] at hspelled
  simpa using Numeral.exists_number?_form hspelled

theorem inherited_regular : Grammar.Inherited Token.Legible Expr.Regular where
  literal hlegible hnumber := hlegible hnumber
  unary _ hop hright := ⟨hop, hright⟩
  binary _ hop hleft hright := ⟨hop, hleft, hright⟩

theorem regular_of_parse {source : String} {p : List Stmt}
    (h : Parser.parse (Lexer.tokenize source) = .ok p) :
    ∀ s ∈ p, s.expr.Regular := by
  refine (Parser.parse_eq_ok.mp h).inherits inherited_regular fun t ht => ?_
  exact Lexer.tokens_legible Pos.start source.toList t (List.takeWhile_subset _ ht)

theorem Stmt.value_verdict {s : Stmt} (h : s.expr.Regular) :
    (∃ x, s.value = .ok x ∧ s.expr.unsupported? = none) ∨
    (∃ op, s.value = .error (.evaluation (.binaryOperator op.kind) op) ∧
      s.expr.unsupported? = some op) ∨
    (s.value = .error (.evaluation .nesting s.first) ∧ Node.levels ≤ s.expr.height) := by
  have hverdict := Expr.value_verdict h (Node.levels - 1)
  generalize hvalue : s.expr.value (Node.levels - 1) = found at hverdict
  cases hverdict with
  | value x hnone => exact .inl ⟨x, by simp [Stmt.value, hvalue], hnone⟩
  | unsupported op hsome => exact .inr (.inl ⟨op, by simp [Stmt.value, hvalue], hsome⟩)
  | tooDeep hdeep => exact .inr (.inr ⟨by simp [Stmt.value, hvalue], by omega⟩)

theorem Expr.unsupported?_eq_some {e : Expr} {op : Token} (h : e.unsupported? = some op) :
    op ∈ e.operators ∧ op.kind ∈ relational := by
  have hkind := List.find?_some h
  exact ⟨List.mem_of_find?_eq_some h, by simpa using hkind⟩

theorem Expr.unsupported?_eq_none {e : Expr} :
    e.unsupported? = none ↔ ∀ op ∈ e.operators, op.kind ∉ relational := by
  simp [Expr.unsupported?]

namespace Stmt
variable {s : Stmt} {op : Token}

theorem exists_value (h : s.expr.Regular) (hheight : s.expr.height < Node.levels)
    (hnone : s.expr.unsupported? = none) : ∃ x, s.value = .ok x := by
  obtain ⟨x, hx, -⟩ | ⟨op, -, hsome⟩ | ⟨-, hdeep⟩ := value_verdict h
  · exact ⟨x, hx⟩
  · rw [hnone] at hsome
    cases hsome
  · omega

theorem value_unsupported (h : s.expr.Regular) (hheight : s.expr.height < Node.levels)
    (hsome : s.expr.unsupported? = some op) :
    s.value = .error (.evaluation (.binaryOperator op.kind) op) := by
  obtain ⟨x, -, hnone⟩ | ⟨op', hvalue, hsome'⟩ | ⟨-, hdeep⟩ := value_verdict h
  · rw [hnone] at hsome
    cases hsome
  · rw [hsome] at hsome'
    cases hsome'
    exact hvalue
  · omega

end Stmt

section Run
variable {style : Style} {p : List Stmt}

theorem fault_cases {f : Fault} (hregular : ∀ s ∈ p, s.expr.Regular)
    (h : (execute style p).2 = .error f) :
    (∃ op, op.kind ∈ relational ∧ f = .evaluation (.binaryOperator op.kind) op) ∨
      ∃ s ∈ p, f = .evaluation .nesting s.first := by
  obtain ⟨s, hs, hvalue⟩ := exists_value_error (Prod.ext rfl h)
  obtain ⟨x, hx, -⟩ | ⟨op, hop, hsome⟩ | ⟨hnesting, -⟩ := Stmt.value_verdict (hregular s hs)
  · rw [hx] at hvalue
    cases hvalue
  · rw [hop] at hvalue
    cases hvalue
    exact .inl ⟨op, (Expr.unsupported?_eq_some hsome).2, rfl⟩
  · rw [hnesting] at hvalue
    cases hvalue
    exact .inr ⟨s, hs, rfl⟩

theorem exists_execute_ok_of_supported (style : Style) (hregular : ∀ s ∈ p, s.expr.Regular)
    (hheight : ∀ s ∈ p, s.expr.height < Node.levels)
    (h : ∀ s ∈ p, ∀ op ∈ s.expr.operators, op.kind ∉ relational) :
    ∃ output values, execute style p = (output, .ok values) := by
  apply exists_execute_ok
  intro s hs
  exact Stmt.exists_value (hregular s hs) (hheight s hs) (Expr.unsupported?_eq_none.mpr (h s hs))

theorem execute_fails_iff (hregular : ∀ s ∈ p, s.expr.Regular)
    (hheight : ∀ s ∈ p, s.expr.height < Node.levels) :
    (∃ f, (execute style p).2 = .error f) ↔
      ∃ s ∈ p, ∃ op ∈ s.expr.operators, op.kind ∈ relational := by
  constructor
  · rintro ⟨f, hf⟩
    by_contra hall
    have hnone : ∀ s ∈ p, ∀ op ∈ s.expr.operators, op.kind ∉ relational :=
      fun s hs op hop hkind => hall ⟨s, hs, op, hop, hkind⟩
    obtain ⟨output, values, hok⟩ := exists_execute_ok_of_supported style hregular hheight hnone
    rw [hok] at hf
    cases hf
  · rintro ⟨s, hs, op, hop, hkind⟩
    cases hresult : (execute style p).2 with
    | error f => exact ⟨f, rfl⟩
    | ok values =>
      -- a run that does not fail would have had a value for the statement
      obtain ⟨x, hx⟩ := exists_value_ok (Prod.ext rfl hresult) s hs
      cases hfirst : s.expr.unsupported? with
      | none => exact absurd hkind (Expr.unsupported?_eq_none.mp hfirst op hop)
      | some first =>
        rw [Stmt.value_unsupported (hregular s hs) (hheight s hs) hfirst] at hx
        cases hx

theorem execute_fails_first {before after : List Stmt} {s : Stmt} {op : Token} (style : Style)
    (hregular : ∀ r ∈ before ++ s :: after, r.expr.Regular)
    (hheight : ∀ r ∈ before ++ s :: after, r.expr.height < Node.levels)
    (hbefore : ∀ r ∈ before, ∀ op ∈ r.expr.operators, op.kind ∉ relational)
    (hop : s.expr.unsupported? = some op) :
    ∃ output values, execute style before = (output, .ok values) ∧
      execute style (before ++ s :: after) =
        (output, .error (.evaluation (.binaryOperator op.kind) op)) := by
  obtain ⟨output, values, hok⟩ := exists_execute_ok_of_supported style
    (fun r hr => hregular r (List.mem_append_left _ hr))
    (fun r hr => hheight r (List.mem_append_left _ hr)) hbefore
  have hvalue := Stmt.value_unsupported (hregular s (by simp)) (hheight s (by simp)) hop
  refine ⟨output, values, hok, ?_⟩
  rw [execute_append_ok hok, execute_cons_error hvalue, String.append_empty]
  rfl

end Run

/-- A program read from a text fails only at operators that compare and at trees too deep. Where no
tree is too deep, it fails exactly if some statement has such an operator: the first such statement
fails, at the first such operator to be applied, and those before it do not. -/
theorem fails_only_at_comparisons (style : Style) (source : String) (program : List Stmt)
    (h : Parser.parse (Lexer.tokenize source) = .ok program) :
    (∀ f, (execute style program).2 = .error f →
      (∃ op, op.kind ∈ relational ∧ f = .evaluation (.binaryOperator op.kind) op) ∨
      ∃ s ∈ program, f = .evaluation .nesting s.first) ∧
    ((∀ s ∈ program, s.expr.height < Node.levels) →
      ((∃ f, (execute style program).2 = .error f) ↔
        ∃ s ∈ program, ∃ op ∈ s.expr.operators, op.kind ∈ relational) ∧
      ∀ before s after, program = before ++ s :: after →
        (∀ r ∈ before, ∀ op ∈ r.expr.operators, op.kind ∉ relational) →
        ∀ op, s.expr.operators.find? (·.kind ∈ relational) = some op →
          ∃ output values, execute style before = (output, .ok values) ∧
            execute style program = (output, .error (.evaluation (.binaryOperator op.kind) op))) := by
  have hregular := regular_of_parse h
  refine ⟨fun f => fault_cases hregular, fun hheight => ⟨execute_fails_iff hregular hheight, ?_⟩⟩
  rintro before s after rfl hbefore op hop
  exact execute_fails_first style hregular hheight hbefore hop

/-- The division by zero has a value; the inner comparison is applied before the outer one. -/
theorem fails_at_inner_comparison :
    let source := "1 / 0; 2 < (3 != 4);"
    let t (kind : Kind) (lexeme : String) (col : Int) : Token := ⟨kind, lexeme, ⟨1, col⟩, none⟩
    let quotient := Stmt.expression
      (.binary (.literal (t .number "1" 1)) (t .slash "/" 3) (.literal (t .number "0" 5)))
    let comparison := Stmt.expression
      (.binary (.literal (t .number "2" 8)) (t .less "<" 10)
        (.binary (.literal (t .number "3" 13)) (t .bangEqual "!=" 15) (.literal (t .number "4" 18))))
    Parser.parse (Lexer.tokenize source) = .ok [quotient, comparison] ∧
      ∃ output values, execute .plain [quotient] = (output, .ok values) ∧
        execute .plain [quotient, comparison] =
          (output, .error (.evaluation (.binaryOperator .bangEqual) (t .bangEqual "!=" 15))) := by
  intro source t quotient comparison
  have hparse : Parser.parse (Lexer.tokenize source) = .ok [quotient, comparison] := by decide +kernel
  refine ⟨hparse, ?_⟩
  have hfails := (fails_only_at_comparisons .plain source _ hparse).2 (by decide)
  exact hfails.2 [quotient] comparison [] rfl (by decide) (t .bangEqual "!=" 15) rfl

end Reckon
