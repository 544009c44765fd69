import Reckon.Proofs.Grammar.FirstFault

/-! Reading a typed line. A lone expression is tried only after a complaint of the grammar, which is
no restriction: tokens that are an expression hold none that is unknown, and so as a program they
are refused for what the grammar misses. -/
namespace Reckon

theorem Fault.Blames.known {f : Fault} {t : Token} (h : f.Blames t) (ht : t.kind ≠ .unknown) :
    ∃ complaint, f = .grammar complaint t := by
  obtain ⟨hunknown, -⟩ | ⟨-, hf⟩ := h
  · exact absurd hunknown ht
  · exact hf

namespace Parser
open Grammar
variable {tokens : List Token} {p : List Stmt} {e : Expr} {f g : Fault}

theorem stop_kind (tokens : List Token) : (stop tokens).kind = .eof := by
  unfold stop
  split
  · rename_i t hfind
    simpa using List.find?_some hfind
  · rfl

/-- Tokens of which none is unknown are refused for what the grammar misses. -/
theorem grammar_of_parse_error (hbody : ∀ t ∈ body tokens, t.kind ≠ .unknown)
    (h : parse tokens = .error f) : ∃ complaint t, f = .grammar complaint t := by
  obtain ⟨rest, hstuck⟩ := Outcome.result_eq_error.mp h
  obtain ⟨u, -, hblocked⟩ := program_failsLate (stop tokens) defaultRoom hstuck
  generalize body tokens = v at hbody hblocked
  cases hblocked with
  | @token t more hblames _ =>
    obtain ⟨complaint, hf⟩ := hblames.known (hbody t (by simp))
    exact ⟨complaint, t, hf⟩
  | ending hblames _ =>
    obtain ⟨complaint, hf⟩ := hblames.known (by simp [stop_kind])
    exact ⟨complaint, _, hf⟩

theorem parse_of_parseExpression (h : parseExpression tokens = .ok e) :
    ∃ complaint t, parse tokens = .error (.grammar complaint t) := by
  have hexpr := parseExpression_eq_ok.mp h
  cases hparse : parse tokens with
  | ok p => exact absurd (parse_eq_ok.mp hparse) hexpr.not_program
  | error f =>
    obtain ⟨complaint, t, rfl⟩ := grammar_of_parse_error hexpr.known hparse
    exact ⟨complaint, t, rfl⟩

theorem parseLine_expression (h : parseExpression tokens = .ok e) :
    parseLine tokens = .ok [.expression e] := by
  obtain ⟨complaint, t, hparse⟩ := parse_of_parseExpression h
  simp [parseLine, hparse, h]

theorem parseLine_other (h : parseExpression tokens = .error f) :
    parseLine tokens = parse tokens := by
  unfold parseLine
  rw [h]
  split
  · rename_i hparse
    exact hparse.symm
  · rfl

theorem parseLine_program (h : parse tokens = .ok p) : parseLine tokens = .ok p := by
  simp [parseLine, h]

theorem parseLine_ok_iff :
    (∃ p, parseLine tokens = .ok p) ↔
      (∃ p, parse tokens = .ok p) ∨ ∃ e, parseExpression tokens = .ok e := by
  cases h : parseExpression tokens with
  | ok e => simp [parseLine_expression h]
  | error f => simp [parseLine_other h]

/-- No list of tokens is both a program and a lone expression. A line is read as whichever it is, a
lone expression as if a semicolon stood at its end; if it is neither, the fault is that of the
program, also where that is an unknown token and no expression is tried. -/
theorem reads_line_as_program_or_expression (tokens : List Token) :
    (∀ p e, parse tokens = .ok p → parseExpression tokens ≠ .ok e) ∧
    ((∃ q, parseLine tokens = .ok q) ↔
      (∃ p, parse tokens = .ok p) ∨ ∃ e, parseExpression tokens = .ok e) ∧
    (∀ p, parse tokens = .ok p → parseLine tokens = .ok p) ∧
    (∀ e, parseExpression tokens = .ok e →
      parseLine tokens = .ok [.expression e] ∧
        ∀ semicolon last : Token, semicolon.kind = .semicolon → last.kind = .eof →
          parse (body tokens ++ [semicolon, last]) = .ok [.expression e]) ∧
    (∀ f g, parse tokens = .error f → parseExpression tokens = .error g →
      parseLine tokens = .error f) ∧
    ∀ t, parse tokens = .error (.lexical t) → ∃ g, parseExpression tokens = .error g := by
  refine ⟨?_, parseLine_ok_iff, fun p => parseLine_program, ?_, ?_, ?_⟩
  · intro p e hp he
    obtain ⟨complaint, t, hparse⟩ := parse_of_parseExpression he
    cases hp.symm.trans hparse
  · intro e he
    refine ⟨parseLine_expression he, fun semicolon last hsemicolon hlast => ?_⟩
    exact parse_statement (parseExpression_eq_ok.mp he) hsemicolon hlast
  · intro f g hf hg
    rw [parseLine_other hg, hf]
  · intro t hlexical
    cases hexpr : parseExpression tokens with
    | error g => exact ⟨g, rfl⟩
    | ok e =>
      obtain ⟨complaint, t', hparse⟩ := parse_of_parseExpression hexpr
      cases hlexical.symm.trans hparse

/-- What follows the first end is not read; an unknown token is reported, and no expression is
tried. -/
theorem reads_line_with_operand_missing :
    let t (kind : Kind) (col : Int) : Token := ⟨kind, "", ⟨1, col⟩, none⟩
    let e : Expr := .binary (.literal (t .number 1)) (t .less 2) (.literal (t .number 3))
    let line := [t .number 1, t .less 2, t .number 3, t .eof 4, t .unknown 5]
    let broken := [t .number 1, t .less 2, t .unknown 3]
    (parseExpression line = .ok e ∧ parseLine line = .ok [.expression e] ∧
      parse [t .number 1, t .less 2, t .number 3, t .semicolon 9, t .eof 0] = .ok [.expression e]) ∧
    parse broken = .error (.lexical (t .unknown 3)) ∧
      ∃ g, parseExpression broken = .error g ∧
        parseLine broken = .error (.lexical (t .unknown 3)) := by
  intro t e line broken
  have hexpr : parseExpression line = .ok e := rfl
  have hbroken : parse broken = .error (.lexical (t .unknown 3)) := rfl
  obtain ⟨-, -, -, hlone, -, -⟩ := reads_line_as_program_or_expression line
  obtain ⟨-, -, -, -, hneither, hlexical⟩ := reads_line_as_program_or_expression broken
  obtain ⟨hline, hended⟩ := hlone e hexpr
  obtain ⟨g, hg⟩ := hlexical _ hbroken
  exact ⟨⟨hexpr, hline, hended (t .semicolon 9) (t .eof 0) rfl rfl⟩, hbroken, g, hg,
    hneither _ g hbroken hg⟩

end Parser
end Reckon
