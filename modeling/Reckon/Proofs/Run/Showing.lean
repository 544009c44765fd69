import Reckon.Proofs.Number.ReadBack
import Reckon.Proofs.Program.Depth
import Reckon.Proofs.Session.Line

/-! Showing trees. Running a text fails with a fault of its own, unless a tree is to be shown that
is too deep: evaluation turns such a tree into a fault and showing it does not. A long sum is
enough. -/
namespace Reckon
open Lexer Reckon.Parser
variable {o : Options} {text line : String} {p : List Stmt} {f : Fault}

section Text

theorem runText_of_showTree (htree : o.showTree = true) (h : parse (tokenize text) = .ok p) :
    (runText o text).2 =
      match renderProgram? p with
      | none => .error .tooDeep
      | some _ => .ok [] := by
  simp only [runText, h, runProgram, htree, if_true]
  cases renderProgram? p <;> rfl

theorem runText_tooDeep_iff :
    (runText o text).2 = .error .tooDeep ↔
      o.showTree = true ∧ ∃ p, parse (tokenize text) = .ok p ∧ TooDeep p := by
  cases hparse : parse (tokenize text) with
  | error f =>
    rw [runText_of_parse_error hparse]
    simp
  | ok p =>
    cases htree : o.showTree with
    | false =>
      rw [runText_of_parse_ok htree hparse]
      simp
    | true =>
      rw [runText_of_showTree htree hparse]
      by_cases hdeep : TooDeep p
      · simp [renderProgram?_of_tooDeep hdeep, hdeep]
      · simp [renderProgram?_eq_shown (not_tooDeep_iff.mp hdeep), hdeep]

end Text

section Line

def tokensLine (tokens : List Token) : String :=
  "[tokens] >>> [" ++ ", ".intercalate (tokens.map Token.render) ++ "]\n"

def treeLine (shown : String) : String := "[ast] >>> " ++ shown ++ "\n"

theorem showTrees_eq_shown (h : ∀ s ∈ p, s.expr.height < Node.levels) :
    showTrees p = (String.join (p.map fun s => treeLine (String.ofList s.shown)), true) := by
  induction p with
  | nil => rfl
  | cons s p ih =>
    rw [showTrees, render?_eq_shown (h s (by simp)), ih fun r hr => h r (List.mem_cons_of_mem s hr)]
    simp [treeLine]

theorem showTrees_of_tooDeep (h : TooDeep p) : (showTrees p).2 = false := by
  induction p with
  | nil => simp [TooDeep] at h
  | cons s p ih =>
    rw [showTrees]
    cases hs : s.render? with
    | none => rfl
    | some shown =>
      obtain ⟨r, hr, hlevels⟩ := h
      cases hr with
      | head =>
        rw [render?_of_levels_le hlevels] at hs
        cases hs
      | tail _ hr => exact ih ⟨r, hr, hlevels⟩

theorem runLine_ne_tooDeep (line : String) : (runLine false line).2 ≠ .error .tooDeep := by
  cases hparse : parseLine (tokenize line) with
  | error f => simp [runLine_of_error hparse]
  | ok p =>
    rw [runLine_of_ok hparse]
    simp

theorem exists_fault_of_tooDeep (h : ∃ p, parseLine (tokenize line) = .ok p ∧ TooDeep p) :
    ∃ f, (runLine false line).2 = .error (.fault f) := by
  obtain ⟨p, hparse, hdeep⟩ := h
  obtain ⟨f, hf⟩ := execute_of_tooDeep .echo hdeep
  rw [runLine_of_ok hparse, hf]
  exact ⟨f, rfl⟩

/-- What being verbose adds, unless a tree is too deep to be shown. -/
theorem runLine_verbose_eq (h : ¬ ∃ p, parseLine (tokenize line) = .ok p ∧ TooDeep p) :
    ∃ trees : List String, runLine true line =
      (tokensLine (tokenize line) ++ String.join (trees.map treeLine) ++ (runLine false line).1,
        (runLine false line).2) := by
  cases hparse : parseLine (tokenize line) with
  | error f =>
    refine ⟨[], ?_⟩
    rw [runLine_of_error hparse]
    simp [runLine, hparse, tokensLine]
  | ok p =>
    have hdeep : ¬ TooDeep p := by simpa [hparse] using h
    have htrees := showTrees_eq_shown (not_tooDeep_iff.mp hdeep)
    refine ⟨p.map fun s => String.ofList s.shown, ?_⟩
    rw [runLine_of_ok hparse]
    simp [runLine, hparse, tokensLine, htrees, endLine_of_lined (lined_execute p),
      Function.comp_def]

theorem runLine_verbose_tooDeep_iff :
    (runLine true line).2 = .error .tooDeep ↔
      ∃ p, parseLine (tokenize line) = .ok p ∧ TooDeep p := by
  constructor
  · intro h
    by_contra hnot
    obtain ⟨trees, heq⟩ := runLine_verbose_eq hnot
    rw [heq] at h
    exact runLine_ne_tooDeep line h
  · rintro ⟨p, hparse, hdeep⟩
    simp [runLine, hparse, showTrees_of_tooDeep hdeep]

end Line

/-- Running a text ends with its values or a fault of its own, unless its tree is to be shown and is
too deep. Being verbose adds to a line what shows its tokens and its trees and changes nothing else,
unless a tree is too deep; then the line, which would have had a fault of its own, has none. -/
theorem fails_to_show_deep_trees_only (files : Files) (o : Options) (text line : String) :
    let result := (run o files true text).2
    let plain := runLine false line
    let verbose := runLine true line
    (result = .error (.halt .tooDeep) ↔
      o.showTree = true ∧ ∃ p, parse (tokenize text) = .ok p ∧ TooDeep p) ∧
    (result = .error (.halt .tooDeep) ∨ (∃ values, result = .ok values) ∨
      ∃ f, result = .error (.halt (.fault f))) ∧
    (verbose.2 = .error .tooDeep ↔ ∃ p, parseLine (tokenize line) = .ok p ∧ TooDeep p) ∧
    ((verbose.2 = .error .tooDeep ∧ ∃ f, plain.2 = .error (.fault f)) ∨
      ∃ trees : List String, verbose =
        (tokensLine (tokenize line) ++ String.join (trees.map treeLine) ++ plain.1, plain.2)) := by
  intro result plain verbose
  have hresult : result = (runText o text).2.mapError .halt := rfl
  refine ⟨?_, ?_, ?_, ?_⟩
  · rw [hresult, ← runText_tooDeep_iff]
    simp
  · rw [hresult]
    cases (runText o text).2 with
    | ok values => exact .inr (.inl ⟨values, rfl⟩)
    | error halt =>
      cases halt with
      | tooDeep => exact .inl rfl
      | fault f => exact .inr (.inr ⟨f, rfl⟩)
  · exact runLine_verbose_tooDeep_iff
  · by_cases hdeep : ∃ p, parseLine (tokenize line) = .ok p ∧ TooDeep p
    · exact .inl ⟨runLine_verbose_tooDeep_iff.mpr hdeep, exists_fault_of_tooDeep hdeep⟩
    · exact .inr (runLine_verbose_eq hdeep)

section Sum

def sumText (n : Nat) : String :=
  String.ofList ('1' :: ((List.replicate n ['+', '1']).flatten ++ [';']))

def oneAt (p : Pos) : Token := ⟨.number, "1", p, none⟩

def sumRounds : Nat → Pos → List Grammar.Round
  | 0, _ => []
  | n + 1, p =>
    let one := oneAt (p.after '+')
    ⟨⟨.plus, "+", p, none⟩, [one], .literal one⟩ :: sumRounds n ((p.after '+').after '1')

def sum (n : Nat) : Expr :=
  Grammar.folded (.literal (oneAt Pos.start)) (sumRounds n (Pos.start.after '1'))

theorem length_sumRounds (n : Nat) (p : Pos) : (sumRounds n p).length = n := by
  induction n generalizing p with
  | zero => rfl
  | succ n ih => rw [sumRounds, List.length_cons, ih]

theorem mem_sumRounds {n : Nat} {p : Pos} {r : Grammar.Round} (h : r ∈ sumRounds n p) :
    r.op.kind = .plus ∧ ∃ q, r.tokens = [oneAt q] ∧ r.tree = .literal (oneAt q) := by
  induction n generalizing p with
  | zero => cases h
  | succ n ih =>
    cases h with
    | head => exact ⟨rfl, _, rfl, rfl⟩
    | tail _ h => exact ih h

/-- Every one of the sum is followed by a sign or by the semicolon, which go on no number. -/
theorem tokens_one (n : Nat) (p : Pos) :
    tokens p ('1' :: ((List.replicate n ['+', '1']).flatten ++ [';'])) =
      oneAt p :: tokens (p.after '1') ((List.replicate n ['+', '1']).flatten ++ [';']) := by
  have hform : Form ['1'] .number := .whole ⟨rfl, by simp⟩
  have hbreaks : Breaks '+' ∧ Breaks ';' := by
    simp only [Breaks]
    decide
  refine tokens_number hform (fun x hx => ?_) p
  cases n with
  | zero =>
    obtain rfl : ';' = x := by simpa using hx
    exact hbreaks.2
  | succ n =>
    obtain rfl : '+' = x := by simpa [List.replicate_succ] using hx
    exact hbreaks.1

theorem tokens_rounds (n : Nat) (p : Pos) :
    ∃ semicolon last : Token, semicolon.kind = .semicolon ∧ last.kind = .eof ∧
      tokens p ((List.replicate n ['+', '1']).flatten ++ [';']) =
        Grammar.spelled (sumRounds n p) ++ [semicolon, last] := by
  induction n generalizing p with
  | zero =>
    have hsemicolon : (';', Kind.semicolon) ∈ Kind.punctuation := by decide
    have htokens := tokens_mark hsemicolon (by decide) p []
    rw [tokens_nil] at htokens
    exact ⟨_, _, rfl, rfl, htokens⟩
  | succ n ih =>
    have hplus : ('+', Kind.plus) ∈ Kind.punctuation := by decide
    obtain ⟨semicolon, last, hsemicolon, hlast, hrest⟩ := ih ((p.after '+').after '1')
    have htokens := tokens_mark hplus (by decide) p
      ('1' :: ((List.replicate n ['+', '1']).flatten ++ [';']))
    rw [tokens_one, hrest] at htokens
    exact ⟨semicolon, last, hsemicolon, hlast, htokens⟩

theorem parse_sumText (n : Nat) : parse (tokenize (sumText n)) = .ok [.expression (sum n)] := by
  obtain ⟨semicolon, last, hsemicolon, hlast, htokens⟩ := tokens_rounds n (Pos.start.after '1')
  have hone : ∀ q, Grammar.Derives 64 .factor [oneAt q] (.literal (oneAt q)) :=
    fun q => .alone .factor (.unsigned (.number rfl))
  have hterm := Grammar.Derives.level (sumRounds n (Pos.start.after '1')) .term (hone Pos.start)
    (fun r hr => by simp [(mem_sumRounds hr).1])
    (fun r hr => by
      obtain ⟨-, q, hr, htree⟩ := mem_sumRounds hr
      rw [hr, htree]
      exact hone q)
  have hexpr : Grammar.Derives 64 .expr _ (sum n) :=
    .expr (.alone .equality (.alone .comparison hterm))
  rw [tokenize, sumText, String.toList_ofList, tokens_one, htokens]
  exact parse_statement hexpr hsemicolon hlast

theorem unsupported?_sum (n : Nat) : (sum n).unsupported? = none := by
  rw [Expr.unsupported?_eq_none, sum, operators_folded]
  intro op hop
  obtain ⟨r, hr, hmem⟩ := List.mem_flatMap.mp hop
  obtain ⟨hplus, q, -, htree⟩ := mem_sumRounds hr
  obtain rfl : op = r.op := by simpa [htree, Expr.operators] using hmem
  rw [hplus]
  decide

theorem tooDeep_sum {n : Nat} (h : Node.levels ≤ n + 1) : TooDeep [.expression (sum n)] := by
  have hheight := length_le_height_folded (.literal (oneAt Pos.start))
    (sumRounds n (Pos.start.after '1'))
  rw [length_sumRounds, Expr.height, Nat.add_comm 1 n] at hheight
  exact ⟨_, List.mem_singleton_self _, Nat.le_trans h hheight⟩

theorem execute_sum {n : Nat} (style : Style) (h : Node.levels ≤ n + 1) :
    execute style [.expression (sum n)] =
      ("", .error (.evaluation .nesting (oneAt Pos.start))) := by
  have hregular := regular_of_parse (parse_sumText n) _ (List.mem_singleton_self _)
  obtain ⟨s, hs, hlevels⟩ := tooDeep_sum h
  obtain rfl := List.mem_singleton.mp hs
  have hfirst : (Stmt.expression (sum n)).first = oneAt Pos.start := first_folded _ _
  have hvalue := Stmt.value_of_levels_le hregular (unsupported?_sum n) hlevels
  rw [execute_cons_error hvalue, hfirst]

/-- Evaluating a sum of enough ones is a fault, and showing its tree is none. -/
theorem sum_overflows (files : Files) {n : Nat} (h : Node.levels ≤ n + 1) :
    let fault : Fault := .evaluation .nesting (oneAt Pos.start)
    (run (.bare true) files true (sumText n)).2 = .error (.halt (.fault fault)) ∧
    (run ⟨false, true, false, false⟩ files true (sumText n)).2 = .error (.halt .tooDeep) ∧
    (runLine false (sumText n)).2 = .error (.fault fault) ∧
    (runLine true (sumText n)).2 = .error .tooDeep := by
  intro fault
  have hparse := parse_sumText n
  have hline := parseLine_program hparse
  have hdeep := tooDeep_sum h
  have hrun := execute_sum .echo h
  have hstyle : (Options.bare true).style = .echo := rfl
  have hshown : (runText ⟨false, true, false, false⟩ (sumText n)).2 = .error .tooDeep :=
    runText_tooDeep_iff.mpr ⟨rfl, _, hparse, hdeep⟩
  refine ⟨?_, ?_, ?_, runLine_verbose_tooDeep_iff.mpr ⟨_, hline, hdeep⟩⟩
  · rw [run_of_parse_ok hparse, hstyle, hrun]
    rfl
  · exact congrArg (Except.mapError ScriptError.halt) hshown
  · rw [runLine_of_ok hline, hrun]
    rfl

end Sum

/-- Two thousand signs are enough: the evaluation of the text is a fault, and neither its tree nor
the line in a verbose session can be shown. -/
theorem overflows_on_long_sum :
    let files : Files := fun _ => .error .missing
    let fault : Fault := .evaluation .nesting (oneAt Pos.start)
    (run (.bare true) files true (sumText 2000)).2 = .error (.halt (.fault fault)) ∧
    (run ⟨false, true, false, false⟩ files true (sumText 2000)).2 = .error (.halt .tooDeep) ∧
    (runLine false (sumText 2000)).2 = .error (.fault fault) ∧
    (runLine true (sumText 2000)).2 = .error .tooDeep :=
  sum_overflows _ (by simp [Node.levels])

end Reckon
