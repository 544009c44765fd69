import Reckon.Proofs.Grammar.FirstFault
import Reckon.Proofs.Program.Placeless

/-! Places are written into trees and faults and never read. Two lists of tokens that are alike in
kinds and lexemes are read alike in every way: as trees that cannot be told apart but by their places,
or with the same complaint about the token at the same index. -/
namespace Reckon
open Relabel (placeless)

/-- Faults with one cause at tokens that are alike: both lexical, or both of grammar with the same
complaint, so with the same text and the same expected kinds. -/
inductive Fault.Alike : Fault → Fault → Prop
  | lexical {s t : Token} : s.alike t = true → Fault.Alike (.lexical s) (.lexical t)
  | grammar {complaint : Complaint} {s t : Token} : s.alike t = true →
      Fault.Alike (.grammar complaint s) (.grammar complaint t)

theorem Fault.Blames.alike {f g : Fault} {s t : Token} (hf : f.Blames s) (hg : g.Blames t)
    (h : placeless.fault f = placeless.fault g) : f.Alike g := by
  obtain ⟨-, rfl⟩ | ⟨-, complaint, rfl⟩ := hf
  · obtain ⟨-, rfl⟩ | ⟨-, complaint', rfl⟩ := hg
    · exact .lexical (placeless_token.mp (Fault.lexical.inj h))
    · cases h
  · obtain ⟨-, rfl⟩ | ⟨-, complaint', rfl⟩ := hg
    · cases h
    · obtain ⟨rfl, htoken⟩ := Fault.grammar.inj h
      exact .grammar (placeless_token.mp htoken)

structure ExprAlike (e d : Expr) : Prop where
  same : Node.same e.toNode d.toNode = true
  compared : e.height ≤ Node.levels → Node.same? Node.levels e.toNode d.toNode = some true
  rendered : e.render? = d.render?
  run : ∀ style, RunAlike style [.expression e] [.expression d]

structure ProgramAlike (p q : List Stmt) : Prop where
  same : List.Forall₂ (fun s t => Node.same s.toNode t.toNode = true) p q
  compared : (∀ s ∈ p, s.expr.height < Node.levels) → sameProgram? p q = some true
  rendered : renderProgram? p = renderProgram? q
  run : ∀ style, RunAlike style p q

theorem exprAlike_of_placeless {e d : Expr} (h : placeless.expr e = placeless.expr d) :
    ExprAlike e d where
  same := same_of_placeless h
  compared := by
    intro hlevels
    rw [same?_expr hlevels, same_of_placeless h]
  rendered := render?_eq_of_placeless h
  run := runAlike_of_placeless (by simp [Relabel.stmt, h])

theorem programAlike_of_placeless {p q : List Stmt}
    (h : p.map placeless.stmt = q.map placeless.stmt) : ProgramAlike p q := by
  have hsame : List.Forall₂ (fun s t => Node.same s.toNode t.toNode = true) p q :=
    (map_eq_iff_forall₂.mp h).imp fun s t => same_of_placeless_stmt
  refine ⟨hsame, fun hlevels => ?_, renderProgram?_eq_of_placeless h, runAlike_of_placeless h⟩
  obtain ⟨answer, hanswer, htrue⟩ := exists_sameProgram? hlevels q
  rw [hanswer, htrue.mpr hsame]

namespace Parser
open Grammar
variable {α : Type} {tokens tokens' u u' : List Token}

theorem keepsEnd_placeless : placeless.KeepsEnd := ⟨rfl, rfl, rfl⟩

section Index
variable {R : List Token → α → Prop}

def Placeless (R : List Token → α → Prop) : Prop :=
  ∀ u, (∃ a, R u a) ↔ ∃ a, R (u.map placeless.token) a

theorem placeless_of_carries (reading : Token → Reading α) {f : α → α}
    (hcomplete : ∀ {stop u a}, R u a → reading stop u = .done a [])
    (hsound : ∀ {stop u a rest}, reading stop u = .done a rest → R u a)
    (hcarries : ∀ stop, placeless.Carries f (reading stop) (reading (placeless.token stop))) :
    Placeless R := by
  intro u
  have hread := hcarries (sample .eof) u
  constructor
  · intro ⟨a, ha⟩
    rw [hcomplete ha] at hread
    exact ⟨f a, hsound hread⟩
  · intro ⟨b, hb⟩
    rw [hcomplete hb] at hread
    cases hu : reading (sample .eof) u with
    | done a rest => exact ⟨a, hsound hu⟩
    | stuck g rest =>
      rw [hu] at hread
      cases hread

theorem placeless_program (m : Nat) : Placeless (Grammar.Program m) :=
  placeless_of_carries (fun stop => program stop m) (program_complete _)
    (fun h => (program_sound h).2) fun _ => Relabel.carries_program m

theorem placeless_expression (m : Nat) : Placeless (Derives m .expr) :=
  placeless_of_carries (fun stop => lone stop m) (lone_complete _)
    (fun h => (lone_sound h).2) fun _ => Relabel.carries_lone m

theorem Viable.of_placeless (hR : Placeless R)
    (h : u.map placeless.token = u'.map placeless.token) (hu : Viable R u) : Viable R u' := by
  obtain ⟨v, a, ha⟩ := hu
  obtain ⟨b, hb⟩ := (hR (u ++ v)).mp ⟨a, ha⟩
  rw [List.map_append, h, ← List.map_append] at hb
  obtain ⟨c, hc⟩ := (hR (u' ++ v)).mpr ⟨b, hb⟩
  exact ⟨v, c, hc⟩

theorem Viable.take {i j : Nat} (h : Viable R (u.take i)) (hij : j ≤ i) : Viable R (u.take j) := by
  obtain ⟨v, a, ha⟩ := h
  refine ⟨(u.take i).drop j ++ v, a, ?_⟩
  have htake : u.take j = (u.take i).take j := by rw [List.take_take, Nat.min_eq_left hij]
  rwa [htake, ← List.append_assoc, List.take_append_drop]

theorem FirstFault.index_le {stop stop' : Token} {f g : Fault} {i j : Nat} (hR : Placeless R)
    (h : u.map placeless.token = u'.map placeless.token) (hf : FirstFault R stop u f i)
    (hg : FirstFault R stop' u' g j) : i ≤ j := by
  -- else the token at `j` would be within what can be completed in the other list
  by_contra hji
  have hlength : u.length = u'.length := by simpa using congrArg List.length h
  have hinside : i ≤ u.length := hf.inside
  have htake : (u.take (j + 1)).map placeless.token = (u'.take (j + 1)).map placeless.token := by
    rw [List.map_take, h, List.map_take]
  exact hg.hopeless (by omega) (.of_placeless hR htake (hf.viable.take (by omega)))

theorem FirstFault.index_eq {stop stop' : Token} {f g : Fault} {i j : Nat} (hR : Placeless R)
    (h : u.map placeless.token = u'.map placeless.token) (hf : FirstFault R stop u f i)
    (hg : FirstFault R stop' u' g j) : i = j :=
  Nat.le_antisymm (hf.index_le hR h hg) (hg.index_le hR h.symm hf)

end Index

/-- Two lists of tokens are read as values that are alike, or both faults are about the token at one
index, the first that no phrase `R` can have there. -/
inductive ReadAlike (R : List Token → α → Prop) (Same : α → α → Prop) (tokens tokens' : List Token) :
    Except Fault α → Except Fault α → Prop
  | done {a b : α} : Same a b → ReadAlike R Same tokens tokens' (.ok a) (.ok b)
  | stuck {f g : Fault} {i : Nat} : FirstFault R (stop tokens) (body tokens) f i →
      FirstFault R (stop tokens') (body tokens') g i → f.Alike g →
      ReadAlike R Same tokens tokens' (.error f) (.error g)

theorem readAlike_of_placeless {R : List Token → α → Prop} {Same : α → α → Prop}
    {read : List Token → Except Fault α} {k : α → α} (hR : Placeless R)
    (hread : ∀ ts, read (ts.map placeless.token) = ((read ts).map k).mapError placeless.fault)
    (hfault : ∀ {ts f}, read ts = .error f → ∃ i, FirstFault R (stop ts) (body ts) f i)
    (hsame : ∀ {a b}, k a = k b → Same a b)
    (h : tokens.map placeless.token = tokens'.map placeless.token) :
    ReadAlike R Same tokens tokens' (read tokens) (read tokens') := by
  have heq := (hread tokens).symm.trans ((congrArg read h).trans (hread tokens'))
  have hbody : (body tokens).map placeless.token = (body tokens').map placeless.token := by
    rw [← Relabel.body_tokens, h, Relabel.body_tokens]
  cases hok : read tokens with
  | ok a =>
    cases hok' : read tokens' with
    | ok b =>
      rw [hok, hok'] at heq
      exact .done (hsame (Except.ok.inj heq))
    | error g =>
      rw [hok, hok'] at heq
      cases heq
  | error f =>
    cases hok' : read tokens' with
    | ok b =>
      rw [hok, hok'] at heq
      cases heq
    | error g =>
      rw [hok, hok'] at heq
      obtain ⟨i, hf⟩ := hfault hok
      obtain ⟨j, hg⟩ := hfault hok'
      obtain rfl := hf.index_eq hR hbody hg
      exact .stuck hf hg (hf.blames.alike hg.blames (Except.error.inj heq))

/-- A line that is refused is refused as a program. -/
theorem parse_of_parseLine_error {f : Fault} (h : parseLine tokens = .error f) :
    parse tokens = .error f := by
  unfold parseLine at h
  split at h
  · rename_i complaint actual hparse
    split at h
    · cases h
    · rw [hparse, h]
  · exact h

/-- Lists of tokens that are alike, token by token, are read alike as programs, as expressions and as
lines; what is read compares equal, is shown alike and runs alike in either style. -/
theorem reads_alike_without_places {tokens tokens' : List Token}
    (h : List.Forall₂ (fun s t => s.alike t = true) tokens tokens') :
    ReadAlike (Grammar.Program 64) ProgramAlike tokens tokens' (parse tokens) (parse tokens') ∧
    ReadAlike (Derives 64 .expr) ExprAlike tokens tokens' (parseExpression tokens)
      (parseExpression tokens') ∧
    ReadAlike (Grammar.Program 64) ProgramAlike tokens tokens' (parseLine tokens)
      (parseLine tokens') := by
  have hplaceless := map_placeless_token.mpr h
  refine ⟨?_, ?_, ?_⟩
  · exact readAlike_of_placeless (placeless_program 64) (Relabel.parse_tokens keepsEnd_placeless)
      parse_firstFault programAlike_of_placeless hplaceless
  · exact readAlike_of_placeless (placeless_expression 64)
      (Relabel.parseExpression_tokens keepsEnd_placeless) parseExpression_firstFault
      exprAlike_of_placeless hplaceless
  · exact readAlike_of_placeless (placeless_program 64) (Relabel.parseLine_tokens keepsEnd_placeless)
      (fun herror => parse_firstFault (parse_of_parseLine_error herror)) programAlike_of_placeless
      hplaceless

/-- The end that is missing is made at the last token, wherever that stands. -/
theorem reads_alike_at_missing_end :
    let sum (p q : Pos) : List Token := [⟨.number, "1", p, none⟩, ⟨.plus, "+", q, some "stray"⟩]
    let f (p : Pos) : Fault := .grammar .operand (Token.eofAt p)
    let tokens := sum ⟨1, 1⟩ ⟨1, 3⟩
    let tokens' := sum ⟨7, 2⟩ ⟨0, 0⟩
    List.Forall₂ (fun s t => s.alike t = true) tokens tokens' ∧
    ReadAlike (Grammar.Program 64) ProgramAlike tokens tokens' (.error (f ⟨1, 3⟩))
      (.error (f ⟨0, 0⟩)) := by
  intro sum f tokens tokens'
  have h : List.Forall₂ (fun s t => s.alike t = true) tokens tokens' :=
    .cons (by decide) (.cons (by decide) .nil)
  exact ⟨h, (reads_alike_without_places h).1⟩

end Parser
end Reckon
