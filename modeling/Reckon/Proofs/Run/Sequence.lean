import Reckon.Proofs.Grammar.Recognition
import Reckon.Proofs.Program.Relabel
import Reckon.Proofs.Token.Newline
import Reckon.Script

/-! Running a text that is two texts with a newline between them. If the first is a program, the whole
is read as the first program and the second after it, further down by the lines of the first; so it
runs as one after the other, and not at all if the second is no program. -/
namespace Reckon

def Relabel.below (lines : Nat) : Relabel := ⟨id, fun p => ⟨p.line + lines, p.col⟩, id⟩

def Fault.below (lines : Nat) (f : Fault) : Fault := (Relabel.below lines).fault f

@[simp] theorem Fault.text_below (lines : Nat) (f : Fault) : (f.below lines).text = f.text := by
  cases f with
  | evaluation trouble token => cases trouble <;> rfl
  | _ => rfl

@[simp] theorem Fault.pos_below (lines : Nat) (f : Fault) :
    (f.below lines).pos = ⟨f.pos.line + lines, f.pos.col⟩ := by
  cases f <;> rfl

section Lines
open Lexer
variable (k : Nat)

theorem Relabel.past_below (p : Pos) (text : List Char) :
    ((below k).pos p).past text = (below k).pos (p.past text) := by
  induction text generalizing p with
  | nil => rfl
  | cons c text ih =>
    have hafter : ((below k).pos p).after c = (below k).pos (p.after c) := by
      by_cases hc : c = '\n'
      · simp [Pos.after, hc, below]
        omega
      · simp [Pos.after, hc, below]
    rw [Pos.past_cons, hafter, ih, Pos.past_cons]

/-- The same text further down has the same tokens there. -/
theorem tokens_below (p : Pos) (text : List Char) :
    tokens ((Relabel.below k).pos p) text = (tokens p text).map (Relabel.below k).token := by
  induction p, text using tokens.induct with
  | case1 p text h =>
    rw [tokens_last h, tokens_last h, Relabel.past_below]
    rfl
  | case2 p text start c rest h found hshorter ih =>
    have hpiece : ∀ piece : Piece, piece.token ((Relabel.below k).pos start) =
        (Relabel.below k).token (piece.token start) := by
      intro piece
      cases piece <;> rfl
    rw [tokens_piece h, tokens_piece h, Relabel.past_below, Relabel.past_below, hpiece, ih]
    rfl

theorem counted_newline (text : List Char) :
    Pos.counted (text ++ ['\n']) = (Relabel.below (1 + text.count '\n')).pos Pos.start := by
  simp [Pos.counted, Relabel.below, Pos.start]
  omega

end Lines

section Program
open Lexer Reckon.Parser
variable {source after : String} {p : List Stmt}

theorem known_of_parse (h : parse (tokenize source) = .ok p) :
    ∀ t ∈ body (tokenize source), t.kind ≠ .unknown :=
  (parse_eq_ok.mp h).known

theorem parse_newline (h : parse (tokenize source) = .ok p) (after : String) :
    let below := Relabel.below (1 + source.toList.count '\n')
    parse (tokenize (source ++ "\n" ++ after)) =
      ((parse (tokenize after)).map fun q => p ++ q.map below.stmt).mapError below.fault := by
  intro below
  obtain ⟨hafter, -⟩ := tokenize_eq after
  have htokens : tokenize (source ++ "\n" ++ after) =
      (body (tokenize source) ++ (body (tokenize after)).map below.token) ++
        [below.token (stop (tokenize after))] := by
    rw [tokenize_newline (known_of_parse h), counted_newline, tokens_below, List.append_assoc]
    change _ ++ (tokenize after).map below.token = _
    rw [← List.map_singleton, ← List.map_append, ← hafter]
  have hfront : ∀ t ∈ body (tokenize source) ++ (body (tokenize after)).map below.token,
      t.kind ≠ .eof := by
    intro t ht
    cases List.mem_append.mp ht with
    | inl ht => exact body_ne_eof _ t ht
    | inr ht =>
      obtain ⟨t', ht', rfl⟩ := List.mem_map.mp ht
      exact body_ne_eof _ t' ht'
  have hend : (below.token (stop (tokenize after))).kind = .eof := by
    rw [(tokenize_eq after).2]
    rfl
  have hfirst : Grammar.Program defaultRoom (body (tokenize source)) p := parse_eq_ok.mp h
  rw [parse, htokens, body_of_eof hfront hend, stop_of_eof hfront hend, program_append hfirst,
    Relabel.carries_program, parse]
  cases program (stop (tokenize after)) defaultRoom (body (tokenize after)) <;> rfl

variable {files : Files} {echo : Bool} {f : Fault}

def Options.bare (echo : Bool) : Options := ⟨false, false, echo, false⟩

theorem runText_of_parse_error {o : Options} (h : parse (tokenize source) = .error f) :
    runText o source = (o.tokenSection (tokenize source), .error (.fault f)) := by
  simp [runText, h]

theorem runText_of_parse_ok {o : Options} (htree : o.showTree = false)
    (h : parse (tokenize source) = .ok p) :
    runText o source =
      (o.tokenSection (tokenize source) ++ (o.heading "Output" ++ (execute o.style p).1),
        (execute o.style p).2.mapError .fault) := by
  simp [runText, h, runProgram, htree]

theorem run_of_parse_error (h : parse (tokenize source) = .error f) :
    run (.bare echo) files true source = ("", .error (.halt (.fault f))) := by
  simp [run, runText_of_parse_error h, Options.tokenSection, Options.bare, Except.mapError]

theorem run_of_parse_ok (h : parse (tokenize source) = .ok p) :
    run (.bare echo) files true source =
      ((execute (Options.bare echo).style p).1,
        (execute (Options.bare echo).style p).2.mapError fun f => .halt (.fault f)) := by
  have htext : runText (.bare echo) source = ((execute (Options.bare echo).style p).1,
      (execute (Options.bare echo).style p).2.mapError .fault) := by
    rw [runText_of_parse_ok rfl h]
    simp [Options.tokenSection, Options.heading, Options.bare]
  cases hvalues : (execute (Options.bare echo).style p).2 with
  | error f => simp [run, htext, hvalues, Except.mapError]
  | ok values => simp [run, htext, hvalues, Except.mapError]

theorem exists_halt {e : ScriptError} (h : parse (tokenize source) = .ok p)
    (herror : (run (.bare echo) files true source).2 = .error e) :
    ∃ f, (execute (Options.bare echo).style p).2 = .error f ∧ e = .halt (.fault f) := by
  rw [run_of_parse_ok h] at herror
  obtain ⟨f, hf, rfl⟩ := mapError_eq_error.mp herror
  exact ⟨f, hf, rfl⟩

theorem values_of_run {values : List Number} (h : parse (tokenize source) = .ok p)
    (hok : (run (.bare echo) files true source).2 = .ok values) :
    (execute (Options.bare echo).style p).2 = .ok values := by
  rw [run_of_parse_ok h] at hok
  exact mapError_eq_ok.mp hok

theorem keepsNumerals_below (k : Nat) : (Relabel.below k).KeepsNumerals := fun _ => rfl

/-- A program, a newline and another text: if the second text is no program, nothing is run and its
fault is reported, further down by the lines of the first; else the first is run, and unless it
fails, the second after it. -/
theorem runs_in_sequence (files : Files) (echo : Bool) (source after : String)
    (h : ∃ p, parse (tokenize source) = .ok p) :
    let k := 1 + source.toList.count '\n'
    let first := run (.bare echo) files true source
    let second := run (.bare echo) files true after
    let whole := run (.bare echo) files true (source ++ "\n" ++ after)
    (∀ f, parse (tokenize after) = .error f →
      second = ("", .error (.halt (.fault f))) ∧
        whole = ("", .error (.halt (.fault (f.below k))))) ∧
    ∀ q, parse (tokenize after) = .ok q →
      (∀ e, first.2 = .error e → whole = first) ∧
      ∀ xs, first.2 = .ok xs →
        whole.1 = first.1 ++ second.1 ∧
        (∀ ys, second.2 = .ok ys → whole.2 = .ok (xs ++ ys)) ∧
        ∀ e, second.2 = .error e →
          ∃ f, e = .halt (.fault f) ∧ whole.2 = .error (.halt (.fault (f.below k))) := by
  intro k first second whole
  obtain ⟨p, hp⟩ := h
  have hparse := parse_newline hp after
  constructor
  · intro f hf
    rw [hf] at hparse
    exact ⟨run_of_parse_error hf, run_of_parse_error hparse⟩
  · intro q hq
    rw [hq] at hparse
    have hfirst : first = _ := run_of_parse_ok hp
    have hsecond : second = _ := run_of_parse_ok hq
    have hwhole : whole = _ := run_of_parse_ok hparse
    constructor
    · intro e he
      obtain ⟨f, hf, rfl⟩ := exists_halt hp he
      rw [hwhole, hfirst, execute_append_error (Prod.ext rfl hf), hf]
    · intro xs hxs
      have hvalues := values_of_run hp hxs
      rw [execute_append_ok (Prod.ext rfl hvalues), Relabel.execute_stmts (keepsNumerals_below k)]
        at hwhole
      refine ⟨?_, ?_, ?_⟩
      · rw [hwhole, hfirst, hsecond]
      · intro ys hys
        rw [hwhole, values_of_run hq hys]
        rfl
      · intro e he
        obtain ⟨f, hf, rfl⟩ := exists_halt hq he
        refine ⟨f, rfl, ?_⟩
        rw [hwhole, hf]
        rfl

/-- The newline ends the comment; the second text ends too early, on the third line of the whole. -/
theorem runs_in_sequence_after_comment :
    let ending (line : Int) : Fault := .grammar .afterExpression (Token.eofAt ⟨line, 2⟩)
    parse (tokenize "1;\n//") =
        .ok [.expression (.literal ⟨.number, "1", Pos.start, none⟩)] ∧
      parse (tokenize "2") = .error (ending 1) ∧
      ∀ files, run (.bare true) files true "1;\n//\n2" = ("", .error (.halt (.fault (ending 3)))) := by
  intro ending
  have hparse : parse (tokenize "1;\n//") =
      .ok [.expression (.literal ⟨.number, "1", Pos.start, none⟩)] := by decide +kernel
  have hafter : parse (tokenize "2") = .error (ending 1) := by decide +kernel
  refine ⟨hparse, hafter, fun files => ?_⟩
  exact ((runs_in_sequence files true "1;\n//" "2" ⟨_, hparse⟩).1 _ hafter).2

end Program

end Reckon
