import Reckon.Proofs.Grammar.Fallback
import Reckon.Proofs.Number.ReadBack
import Reckon.Proofs.Run.Sequence
import Reckon.Session

/-! A typed line runs like a text. A lone expression is the text with a semicolon on a line of its own;
every other line is the text itself. Trimming what is written and ending its line again changes
nothing, for every value is written as a line that is not empty. -/
namespace Reckon

section Reading
open Lexer Reckon.Parser
variable {line : String} {e : Expr}

/-- The semicolon on the next line is the last token of the text, whatever the line ends with. -/
theorem parse_completed (h : parseExpression (tokenize line) = .ok e) :
    parse (tokenize (line ++ "\n;")) = .ok [.expression e] := by
  have hexpr := parseExpression_eq_ok.mp h
  have hsemicolon : (';', Kind.semicolon) ∈ Kind.punctuation := by decide
  have htokens := tokenize_newline hexpr.known ";"
  have hafter : (";" : String).toList = [';'] := rfl
  rw [hafter, tokens_mark hsemicolon (by decide), tokens_nil, String.append_assoc] at htokens
  rw [show "\n;" = "\n" ++ ";" from rfl, htokens]
  exact parse_statement hexpr rfl rfl

end Reading

section Output
variable {p : List Stmt}

theorem Decimal.newline_not_mem_positional (d : Decimal) : '\n' ∉ d.positional := by
  obtain ⟨c, tail, htext, hc, -⟩ := Numeral.form_plain (form_positional d)
  have hform := form_positional d
  obtain ⟨hquote, hnewline⟩ : c ≠ '"' ∧ c ≠ '\n' := of_isDigit hc (by decide)
  rw [htext] at hform ⊢
  intro hmem
  cases hmem with
  | head => exact hnewline rfl
  | tail _ hmem => exact hform.not_breaks hquote '\n' hmem Lexer.breaks_newline

theorem Decimal.signed_line (negative : Bool) (d : Decimal) :
    signed negative d ≠ [] ∧ '\n' ∉ signed negative d := by
  have hne := (form_positional d).ne_nil
  have hnewline := newline_not_mem_positional d
  cases negative with
  | false => exact ⟨hne, hnewline⟩
  | true => exact ⟨by simp [signed], by simpa [signed] using hnewline⟩

/-- The text of a number is not empty and stands on one line. -/
theorem Number.text_line (x : Number) : x.text.toList ≠ [] ∧ '\n' ∉ x.text.toList := by
  cases x with
  | nan => exact ⟨by decide, by decide⟩
  | infinite negative => cases negative <;> exact ⟨by decide, by decide⟩
  | finite negative size =>
    rw [text_eq, String.toList_ofList]
    exact Decimal.signed_line negative _

/-- Nothing at all, or a text of which the last line ends and is not empty. -/
def Lined (output : String) : Prop :=
  output = "" ∨ ∃ front c, output.toList = front ++ [c, '\n'] ∧ c ≠ '\n'

theorem Lined.append {output : String} (h : Lined output) (x : Number) :
    Lined (x.text ++ "\n" ++ output) := by
  right
  obtain rfl | ⟨front, c, hfront, hc⟩ := h
  · obtain ⟨hne, hnewline⟩ := x.text_line
    obtain ⟨front, c, hlast⟩ : ∃ front c, x.text.toList = front ++ [c] :=
      ⟨_, _, (List.dropLast_concat_getLast hne).symm⟩
    refine ⟨front, c, by simp [hlast], ?_⟩
    rintro rfl
    exact hnewline (by simp [hlast])
  · exact ⟨x.text.toList ++ '\n' :: front, c, by simp [hfront], hc⟩

theorem endLine_of_lined {output : String} (h : Lined output) : endLine output = output := by
  obtain rfl | ⟨front, c, hfront, hc⟩ := h
  · rfl
  · have htrim : Text.trimEnd (· == '\n') output.toList = front ++ [c] := by
      simp [hfront, Text.trimEnd, hc]
    rw [← String.toList_inj, hfront, endLine, htrim]
    cases front <;> simp

/-- Running a program on echo writes lines, also if a statement fails. -/
theorem lined_execute (p : List Stmt) : Lined (execute .echo p).1 := by
  induction p with
  | nil => exact .inl rfl
  | cons s p ih =>
    cases hvalue : s.value with
    | error f =>
      rw [execute_cons_error hvalue]
      exact .inl rfl
    | ok x =>
      rw [execute_cons_ok hvalue]
      exact ih.append x

end Output

section Line
open Lexer Reckon.Parser
variable {line : String} {p : List Stmt} {f : Fault}

theorem runLine_of_error (h : parseLine (tokenize line) = .error f) :
    runLine false line = ("", .error (.fault f)) := by
  simp [runLine, h]

theorem runLine_of_ok (h : parseLine (tokenize line) = .ok p) :
    runLine false line = ((execute .echo p).1, (execute .echo p).2.mapError .fault) := by
  simp [runLine, h, endLine_of_lined (lined_execute p)]

theorem run_eq_runLine {source : String} {outcome : Except Fault (List Stmt)} (files : Files)
    (hline : parseLine (tokenize line) = outcome) (hsource : parse (tokenize source) = outcome) :
    run (.bare true) files true source =
      ((runLine false line).1, (runLine false line).2.mapError .halt) := by
  cases outcome with
  | error f =>
    rw [runLine_of_error hline, run_of_parse_error hsource]
    rfl
  | ok p =>
    have hstyle : (Options.bare true).style = .echo := rfl
    rw [runLine_of_ok hline, run_of_parse_ok hsource, hstyle]
    cases (execute .echo p).2 <;> rfl

/-- A line typed in a session that is not verbose writes what the text writes on echo, and has its
values or its fault; the text of a lone expression has a semicolon on the next line. What a program
writes on echo is left as it is by the trimming that a session does. -/
theorem runs_line_as_text (files : Files) (line : String) :
    run (.bare true) files true
        (match parseExpression (tokenize line) with
          | .ok _ => line ++ "\n;"
          | .error _ => line) =
      ((runLine false line).1, (runLine false line).2.mapError .halt) ∧
    ∀ p, endLine (execute .echo p).1 = (execute .echo p).1 := by
  refine ⟨?_, fun p => endLine_of_lined (lined_execute p)⟩
  cases h : parseExpression (tokenize line) with
  | ok e => exact run_eq_runLine files (parseLine_expression h) (parse_completed h)
  | error f => exact run_eq_runLine files (parseLine_other h) rfl

end Line

end Reckon
