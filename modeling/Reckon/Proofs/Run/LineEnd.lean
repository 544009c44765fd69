import Reckon.Proofs.Grammar.FirstFault
import Reckon.Proofs.Grammar.Tree
import Reckon.Proofs.Run.Sequence
import Reckon.Proofs.Token.LineEnd

/-! Running texts with line ends of two characters. No number and no operator holds a line end, so an
accepted text has the same trees; a refused one is refused at the same token with the same message. -/
namespace Reckon
open Lexer Reckon.Parser
open Relabel (crlf)

inductive Fault.SameButLineEnds : Fault → Fault → Prop
  | lexical {t t' : Token} : t.SameButLineEnds t' → Fault.SameButLineEnds (.lexical t) (.lexical t')
  | grammar {complaint : Complaint} {t t' : Token} : t.SameButLineEnds t' →
      Fault.SameButLineEnds (.grammar complaint t) (.grammar complaint t')

variable {source : String} {p : List Stmt} {f f' : Fault}

theorem Fault.SameButLineEnds.message_eq (h : f.SameButLineEnds f') :
    f'.message = f.message ∧ f'.pos = f.pos := by
  cases h with
  | lexical ht => simp [message, located, text, pos, ht.pos_eq, ht.error_eq]
  | grammar ht => simp [message, located, text, pos, ht.pos_eq, ht.kind_eq]

section Accepted

theorem keepsEnd_crlf : crlf.KeepsEnd := ⟨rfl, rfl, rfl⟩

theorem inherited_crlf :
    Grammar.Inherited (fun t => t.kind ≠ .string → ¬ t.Unterminated → crlf.token t = t)
      (fun e => crlf.expr e = e) := by
  have hsame : ∀ {t : Token} {kind : Kind}, t.kind = kind → kind ∉ [Kind.string, .unknown] →
      (t.kind ≠ .string → ¬ t.Unterminated → crlf.token t = t) → crlf.token t = t := by
    rintro t kind rfl hkind ht
    simp only [List.mem_cons, List.not_mem_nil, or_false, not_or] at hkind
    exact ht hkind.1 fun hopen => hkind.2 hopen.1
  have hoperators : ∀ k ∈ tiers.flatten, k ∉ [Kind.string, .unknown] := by decide
  have hsigns : ∀ k ∈ Kind.signs, k ∉ [Kind.string, .unknown] := by decide
  constructor
  · intro t ht hnumber
    rw [Relabel.expr, hsame hnumber (by decide) ht]
  · intro op right hop hkind hright
    rw [Relabel.expr, hsame rfl (hsigns _ hkind) hop, hright]
  · intro left op right hop hkind hleft hright
    rw [Relabel.expr, hsame rfl (hoperators _ hkind) hop, hleft, hright]

/-- The trees of an accepted text hold no line ends. -/
theorem map_crlf_of_parse (h : parse (tokenize source) = .ok p) : p.map crlf.stmt = p := by
  have hbody : ∀ t ∈ body (tokenize source), t ∈ tokenize source :=
    (List.takeWhile_sublist _).subset
  have hexpr := (parse_eq_ok.mp h).inherits inherited_crlf fun t ht =>
    crlf_token_eq _ _ t (hbody t ht)
  have hstmt : ∀ s ∈ p, crlf.stmt s = s := by
    intro s hs
    have he := hexpr s hs
    cases s with
    | expression e => exact congrArg Stmt.expression he
    | print keyword e => exact congrArg (Stmt.print keyword) he
  exact (List.map_congr_left hstmt).trans p.map_id

end Accepted

section Refused

/-- The token that a refusal is about is one of the text, or the end. -/
theorem exists_blamed (h : parse (tokenize source) = .error f) :
    ∃ t ∈ tokenize source, f.Blames t := by
  obtain ⟨i, hf⟩ := parse_firstFault h
  refine ⟨_, ?_, hf.blames⟩
  have htokens := (tokenize_eq source).1
  have hmem : (body (tokenize source))[i]?.getD (stop (tokenize source)) ∈
      body (tokenize source) ++ [stop (tokenize source)] := by
    cases hi : (body (tokenize source))[i]? with
    | some t => exact List.mem_append_left _ (List.mem_of_getElem? hi)
    | none => simp
  rwa [← htokens] at hmem

theorem fault_crlf (h : parse (tokenize source) = .error f) : f.SameButLineEnds (crlf.fault f) := by
  obtain ⟨t, ht, ⟨-, rfl⟩ | ⟨-, complaint, rfl⟩⟩ := exists_blamed h
  · exact .lexical (same_but_line_ends ht)
  · exact .grammar (same_but_line_ends ht)

end Refused

theorem parse_crlf (source : String) :
    parse (tokenize (Text.withCrlf source)) =
      ((parse (tokenize source)).map (List.map crlf.stmt)).mapError crlf.fault := by
  rw [tokenize_crlf, Relabel.parse_tokens keepsEnd_crlf]

def RunsTo (o : Options) (source : String) (rest : String × Except Halt (List Number)) : Prop :=
  runText o source = (o.tokenSection (tokenize source) ++ rest.1, rest.2)

/-- Both texts are read as one program, with the same places, and run as that program whatever is to be
shown; or both are refused, with one message about the same place, and nothing is run. -/
inductive FareAlike (source source' : String) : Prop
  | accepted {p : List Stmt} : parse (tokenize source) = .ok p → parse (tokenize source') = .ok p →
      (∀ o, RunsTo o source (runProgram o p) ∧ RunsTo o source' (runProgram o p)) →
      FareAlike source source'
  | refused {f f' : Fault} : parse (tokenize source) = .error f →
      parse (tokenize source') = .error f' → f.SameButLineEnds f' → f'.message = f.message →
      f'.pos = f.pos →
      (∀ o, RunsTo o source ("", .error (.fault f)) ∧ RunsTo o source' ("", .error (.fault f'))) →
      FareAlike source source'

theorem runsTo_of_ok (o : Options) (h : parse (tokenize source) = .ok p) :
    RunsTo o source (runProgram o p) := by
  simp [RunsTo, runText, h]

theorem runsTo_of_error (o : Options) (h : parse (tokenize source) = .error f) :
    RunsTo o source ("", .error (.fault f)) := by
  simp [RunsTo, runText_of_parse_error h]

/-- A text in which each line ends in a carriage return and a newline has the tokens of the text with
newlines alone, at the same places, and fares alike. -/
theorem line_ends_do_not_matter (source : String) :
    List.Forall₂ Token.SameButLineEnds (tokenize source) (tokenize (Text.withCrlf source)) ∧
      FareAlike source (Text.withCrlf source) := by
  refine ⟨tokens_same_but_line_ends source, ?_⟩
  have hparse := parse_crlf source
  cases h : parse (tokenize source) with
  | ok p =>
    rw [h] at hparse
    have hsame : parse (tokenize (Text.withCrlf source)) = .ok p :=
      hparse.trans (congrArg Except.ok (map_crlf_of_parse h))
    exact .accepted h hsame fun o => ⟨runsTo_of_ok o h, runsTo_of_ok o hsame⟩
  | error f =>
    rw [h] at hparse
    have hfault := fault_crlf h
    obtain ⟨hmessage, hpos⟩ := hfault.message_eq
    exact .refused h hparse hfault hmessage hpos fun o =>
      ⟨runsTo_of_error o h, runsTo_of_error o hparse⟩

end Reckon
