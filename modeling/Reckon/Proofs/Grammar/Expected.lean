import Reckon.Proofs.Grammar.Fallback
import Reckon.Proofs.Grammar.Nesting

/-! What a refusal says it expects. Read again with the tokens before the refused one and a token of an
expected kind, a list gets past that place. An opening parenthesis does so unless all the room is used
up by what is open there. -/
namespace Reckon.Parser
open Grammar
variable {α : Type} {stop t actual : Token} {f : Fault} {m i : Nat} {complaint : Complaint}
  {u v tokens ahead rest : List Token} {R : List Token → α → Prop}

/-- The reader has failed at index `i`: there it stands, or behind it if it took the token that it
complains about. -/
def FailsAt (out : Except Fault α × Reader) (i : Nat) : Prop :=
  ∃ f, out.1 = .error f ∧ out.2.position = i + f.taken

/-- Nothing fails up to index `i`: all is read, or the failure comes later. -/
def GetsPast (out : Except Fault α × Reader) (i : Nat) : Prop :=
  (∃ a, out.1 = .ok a) ∨ ∃ j, i < j ∧ FailsAt out j

/-- The complaint about `actual`, made at index `i`, is right in what it expects, as shown by reading
again what stands before with a token of an expected kind. All room is used up where `m` groups and
signs are open. -/
structure ExpectsRightly (read : List Token → Except Fault α × Reader) (m : Nat) (tokens : List Token)
    (complaint : Complaint) (actual : Token) (i : Nat) : Prop where
  inside : i ≤ (body tokens).length
  failsAt : FailsAt (read tokens) i
  met : (body tokens)[i]?.getD (Parser.stop tokens) = actual
  unexpected : actual.kind ∉ complaint.expected
  continued : ∀ t last, t.kind ∈ complaint.expected → last.kind = .eof →
    ¬ (complaint = .operand ∧ t.kind = .leftParen ∧ nesting ((body tokens).take i) = m) →
      GetsPast (read ((body tokens).take i ++ [t, last])) i
  ended : ∀ last, .eof ∈ complaint.expected → last.kind = .eof →
    ∃ a, (read ((body tokens).take i ++ [last])).1 = .ok a
  exhausted : ∀ t last, complaint = .operand → t.kind = .leftParen →
    nesting ((body tokens).take i) = m → last.kind = .eof →
      FailsAt (read ((body tokens).take i ++ [t, last])) i

/-- Where a number may stand, an opening parenthesis may too, if not all of the bound is used up by what
is open there. -/
theorem viable_opening_iff {number : Token} (h : Nested R m) (hnumber : number.kind = .number)
    (ht : t.kind = .leftParen) (hviable : Viable R (u ++ [number])) :
    Viable R (u ++ [t]) ↔ nesting u ≠ m := by
  obtain ⟨v, a, ha⟩ := hviable
  rw [List.append_assoc] at ha
  obtain ⟨n, hn, p, q, -, -, hreplace⟩ := h ha (.inl hnumber)
  constructor
  · rintro ⟨v', b, hb⟩ hall
    rw [List.append_assoc] at hb
    obtain ⟨n', hn', p', q', -, ⟨e, he⟩, -⟩ := h hb (.inr ht)
    exact he.group_room rfl ht (by omega)
  · intro hroom
    obtain ⟨n, rfl⟩ : ∃ k, n = k + 1 := Nat.exists_eq_succ_of_ne_zero (by omega)
    have hgroup : Derives (n + 1) .primary (t :: ([number] ++ [sample .rightParen])) _ :=
      .group ht (.of_unary (.unsigned (.number hnumber))) rfl
    obtain ⟨b, hb⟩ := hreplace _ _ hgroup
    exact ⟨_, b, by simpa using hb⟩

structure RefusesRightly (stop : Token) (reading : Reading α) (R : List Token → α → Prop) (f : Fault)
    (u ahead : List Token) : Prop extends Refuses stop reading f u ahead where
  viable : Viable R u
  asked : ∀ t, t.kind ∈ f.expected → t.kind ≠ .leftParen → t.kind ≠ .eof → Viable R (u ++ [t])
  opening : .leftParen ∈ f.expected → ∃ t, f = .grammar .operand t
  ended : .eof ∈ f.expected → ∃ a, R u a

namespace RefusesRightly
variable {reading : Reading α}

theorem actual_eq (hr : RefusesRightly stop reading R (.grammar complaint actual) u ahead) :
    actual = ahead.headD stop := by
  obtain ⟨-, hlexical⟩ | ⟨-, _, hgrammar⟩ := hr.blames
  · cases hlexical
  · exact (Fault.grammar.inj hgrammar).2

theorem viable_opening (hr : RefusesRightly stop reading R (.grammar .operand actual) u ahead)
    (hnested : Nested R m) (ht : t.kind = .leftParen) : Viable R (u ++ [t]) ↔ nesting u ≠ m := by
  have hnumber : Viable R (u ++ [sample .number]) :=
    hr.asked _ (by simp [sample, Fault.expected, Complaint.expected]) (by decide) (by decide)
  exact viable_opening_iff hnested rfl ht hnumber

theorem viable_expected (hr : RefusesRightly stop reading R (.grammar complaint actual) u ahead)
    (hnested : Nested R m) (ht : t.kind ∈ complaint.expected) (heof : t.kind ≠ .eof)
    (hroom : ¬ (complaint = .operand ∧ t.kind = .leftParen ∧ nesting u = m)) :
    Viable R (u ++ [t]) := by
  by_cases hparen : t.kind = .leftParen
  · obtain ⟨_, hoperand⟩ := hr.opening (hparen ▸ ht)
    obtain ⟨rfl, -⟩ := Fault.grammar.inj hoperand
    exact (hr.viable_opening hnested hparen).mpr fun hall => hroom ⟨rfl, hparen, hall⟩
  · exact hr.asked t ht hparen heof

end RefusesRightly

structure Entry (reading : Token → Reading α) (R : List Token → α → Prop) (m : Nat) : Prop where
  sound : ∀ {stop u a rest}, reading stop u = .done a rest → R u a
  complete : ∀ {stop u a}, R u a → reading stop u = .done a []
  refuses : ∀ {stop tokens f rest}, (∀ t ∈ tokens, t.kind ≠ .eof) →
    reading stop tokens = .stuck f rest →
      ∃ u ahead, tokens = u ++ ahead ∧ RefusesRightly stop (reading stop) R f u ahead
  nested : Nested R m

theorem HonestOn.rightly {reading : Reading α} (hR : ∀ {u a}, R u a → ∀ t ∈ u, t.kind ≠ .eof)
    (h : HonestOn stop reading R f tokens) :
    ∃ u ahead, tokens = u ++ ahead ∧ RefusesRightly stop reading R f u ahead := by
  obtain ⟨u, ahead, rfl, h⟩ := h
  refine ⟨u, ahead, rfl, h.toRefuses, h.viable, fun t ht hparen _ => h.asked t ht hparen, h.opening, ?_⟩
  intro hend
  obtain ⟨v, a, ha⟩ := h.asked (sample .eof) hend (by decide)
  exact absurd rfl (hR ha (sample .eof) (by simp))

theorem program_entry (m : Nat) : Entry (program · m) (Grammar.Program m) m where
  sound h := (program_sound h).2
  complete := program_complete _
  refuses := by
    intro stop tokens f rest _ h
    exact (program_honest stop m h).rightly fun hp => hp.kind_ne (by decide)
  nested := program_nested m

theorem trailing_rightly {e : Expr} (he : Derives m .expr u e) (ht : t.kind ∉ tiers.flatten)
    (heof : t.kind ≠ .eof) (more : List Token) :
    RefusesRightly stop (lone stop m) (Derives m .expr) (Fault.reject .trailing t) u (t :: more) := by
  have honly : ∀ {k}, k ∈ (Fault.reject .trailing t).expected → k = .eof := fun hk =>
    List.mem_singleton.mp (Fault.mem_expected_reject hk)
  have htaken : (Fault.reject .trailing t).taken = 0 := Fault.taken_reject (by decide) t
  refine ⟨⟨Fault.reject_blames _ _, ?_, ?_, ?_⟩, ⟨[], e, by simpa using he⟩, ?_, ?_, fun _ => ⟨e, he⟩⟩
  · exact ends_cons.mpr fun hmem => heof (honly hmem)
  · simp [htaken]
  · intro other hother
    obtain ⟨more', rfl⟩ := List.head?_eq_some_iff.mp hother
    rw [htaken]
    exact lone_trailing he ht more'
  · intro t' ht' _ hend
    exact absurd (honly ht') hend
  · intro hparen
    cases honly hparen

theorem lone_entry (m : Nat) : Entry (lone · m) (Derives m .expr) m where
  sound h := (lone_sound h).2
  complete := lone_complete _
  refuses := by
    intro stop tokens f rest htokens h
    obtain hhonest | ⟨u, t, more, e, rfl, rfl, he, ht⟩ := lone_stuck h
    · exact hhonest.rightly fun he => he.kind_ne (by decide)
    · exact ⟨u, t :: more, rfl, trailing_rightly he ht (htokens t (by simp)) more⟩
  nested := expr_nested m

def readAll (reading : Token → Reading α) (m : Nat) (tokens : List Token) : Except Fault α × Reader :=
  (Reader.ofTokens tokens m).run (reading (Parser.stop tokens))

theorem Reader.program_eq_readAll (m : Nat) :
    (fun tokens => (Reader.ofTokens tokens m).program) = readAll (Parser.program · m) m := by
  funext tokens
  simp [readAll, Reader.program, Reader.room, Reader.ofTokens]

theorem Reader.lone_eq_readAll (m : Nat) :
    (fun tokens => (Reader.ofTokens tokens m).lone) = readAll (Parser.lone · m) m := by
  funext tokens
  simp [readAll, Reader.lone, Reader.room, Reader.ofTokens]

section Reading
variable {reading : Token → Reading α}

theorem readAll_error (hr : Refuses (Parser.stop tokens) (reading (Parser.stop tokens)) f u ahead)
    (hbody : body tokens = u ++ ahead) : (readAll reading m tokens).1 = .error f := by
  have hstuck := hr.stuck ahead rfl
  simp [readAll, Reader.run, Reader.rest, Reader.ofTokens, hbody, hstuck, Outcome.result]

theorem readAll_failsAt (hr : Refuses (Parser.stop tokens) (reading (Parser.stop tokens)) f u ahead)
    (hbody : body tokens = u ++ ahead) : FailsAt (readAll reading m tokens) u.length := by
  refine ⟨f, readAll_error hr hbody, ?_⟩
  have hstuck := hr.stuck ahead rfl
  have htaken := hr.taken_le
  simp only [readAll, Reader.run, Reader.rest, Reader.ofTokens, Reader.atRest, hbody, List.drop_zero,
    hstuck, Outcome.rest, List.length_append, List.length_drop]
  omega

theorem readAll_ok {a : α} (h : reading (Parser.stop tokens) (body tokens) = .done a rest) :
    (readAll reading m tokens).1 = .ok a := by
  simp [readAll, Reader.run, Reader.rest, Reader.ofTokens, h, Outcome.result]

namespace Entry
variable (h : Entry reading R m)
include h

theorem ok_of_body {a : α} (hbody : body tokens = u) (ha : R u a) :
    (readAll reading m tokens).1 = .ok a := by
  subst hbody
  exact readAll_ok (h.complete ha)

theorem ok_or_refuses (tokens : List Token) :
    (∃ a, (readAll reading m tokens).1 = .ok a ∧ R (body tokens) a) ∨
      ∃ f u ahead, body tokens = u ++ ahead ∧
        RefusesRightly (Parser.stop tokens) (reading (Parser.stop tokens)) R f u ahead := by
  cases houtcome : reading (Parser.stop tokens) (body tokens) with
  | done a rest => exact .inl ⟨a, readAll_ok houtcome, h.sound houtcome⟩
  | stuck f rest => exact .inr ⟨f, h.refuses (body_ne_eof tokens) houtcome⟩

/-- A phrase that went on with the refused token would be read whole, but the reading is stuck there. -/
theorem not_viable (hr : Refuses stop (reading stop) f u (t :: rest)) : ¬ Viable R (u ++ [t]) := by
  rintro ⟨v, a, ha⟩
  rw [List.append_assoc] at ha
  have hdone : reading stop (u ++ t :: v) = .done a [] := h.complete ha
  have hstuck := hr.stuck (t :: v) rfl
  rw [hstuck] at hdone
  cases hdone

theorem getsPast (hbody : body tokens = u ++ [t]) (hviable : Viable R (u ++ [t])) :
    GetsPast (readAll reading m tokens) u.length := by
  obtain ⟨a, hok, -⟩ | ⟨f, u', ahead, hsplit, hr⟩ := h.ok_or_refuses tokens
  · exact .inl ⟨a, hok⟩
  · cases ahead with
    | nil =>
      refine .inr ⟨u'.length, ?_, readAll_failsAt hr.toRefuses hsplit⟩
      have hlength := congrArg List.length (hbody.symm.trans hsplit)
      simp only [List.length_append, List.length_cons, List.length_nil] at hlength
      omega
    | cons t' more =>
      have hparts : u ++ [t] = (u' ++ [t']) ++ more := by rw [← hbody, hsplit]; simp
      rw [hparts] at hviable
      exact absurd hviable.of_append (h.not_viable hr.toRefuses)

theorem failsAt (hbody : body tokens = u ++ [t]) (hviable : Viable R u)
    (hrefused : ¬ Viable R (u ++ [t])) : FailsAt (readAll reading m tokens) u.length := by
  obtain ⟨a, -, ha⟩ | ⟨f, u', ahead, hsplit, hr⟩ := h.ok_or_refuses tokens
  · exact absurd ⟨[], a, by simpa [hbody] using ha⟩ hrefused
  · have hfails := readAll_failsAt (m := m) hr.toRefuses hsplit
    rw [hbody] at hsplit
    cases ahead with
    | nil =>
      rw [List.append_nil] at hsplit
      exact absurd (hsplit ▸ hr.viable) hrefused
    | cons t' more =>
      obtain ⟨c, rfl, -⟩ | ⟨c, rfl, hc⟩ := append_eq_around hsplit
      · rw [List.append_cons] at hviable
        exact absurd hviable.of_append (h.not_viable hr.toRefuses)
      · obtain rfl : c = [] := by
          cases c with
          | nil => rfl
          | cons _ c => simp at hc
        simpa using hfails

theorem expectsRightly (herror : (readAll reading m tokens).1 = .error (.grammar complaint actual)) :
    ∃ i, ExpectsRightly (readAll reading m) m tokens complaint actual i := by
  obtain ⟨a, hok, -⟩ | ⟨f, u, ahead, hbody, hr⟩ := h.ok_or_refuses tokens
  · rw [hok] at herror
    cases herror
  obtain rfl : f = .grammar complaint actual := by
    rw [readAll_error hr.toRefuses hbody] at herror
    exact Except.error.inj herror
  have hu : ∀ t ∈ u, t.kind ≠ .eof := by
    intro t ht
    exact body_ne_eof tokens t (by simp [hbody, ht])
  have hagain : ∀ {t last : Token}, t.kind ≠ .eof → last.kind = .eof →
      body (u ++ [t, last]) = u ++ [t] := by
    intro t last ht hlast
    rw [List.append_cons]
    exact body_of_eof (by simpa [or_imp, forall_and, ht] using hu) hlast
  have htake : (body tokens).take u.length = u := by simp [hbody]
  refine ⟨u.length, by simp [hbody], readAll_failsAt hr.toRefuses hbody, ?_, ?_, ?_, ?_, ?_⟩
  · rw [hr.actual_eq, hbody, List.getElem?_append_right (Nat.le_refl _), Nat.sub_self,
      List.headD_eq_head?_getD, List.head?_eq_getElem?]
  · cases ahead with
    | cons t more =>
      obtain rfl : actual = t := hr.actual_eq
      exact ends_cons.mp hr.unexpected
    | nil =>
      obtain rfl : actual = Parser.stop tokens := hr.actual_eq
      rw [stop_kind]
      intro hend
      -- the list would be read, as it ends where it may
      obtain ⟨a, ha⟩ := hr.ended hend
      rw [h.ok_of_body (by simpa using hbody) ha] at herror
      cases herror
  · intro t last ht hlast hroom
    rw [htake] at hroom ⊢
    by_cases heof : t.kind = .eof
    · obtain ⟨a, ha⟩ := hr.ended (heof ▸ ht)
      exact .inl ⟨a, h.ok_of_body (body_of_eof hu heof) ha⟩
    · exact h.getsPast (hagain heof hlast) (hr.viable_expected h.nested ht heof hroom)
  · intro last hend hlast
    rw [htake]
    obtain ⟨a, ha⟩ := hr.ended hend
    exact ⟨a, h.ok_of_body (body_of_eof hu hlast) ha⟩
  · rintro t last rfl ht hall hlast
    rw [htake] at hall ⊢
    have hrefused : ¬ Viable R (u ++ [t]) := fun hviable =>
      (hr.viable_opening h.nested ht).mp hviable hall
    exact h.failsAt (hagain (by simp [ht]) hlast) hr.viable hrefused

end Entry
end Reading

/-- A complaint names no kind that it met, and the kinds that it names are right: with a token of one
of them in place of the refused one, a program, or one expression, is read or refused later. Only an
opening parenthesis for a missing operand is refused there too, if all room is used up. -/
theorem expected_kinds_go_on (tokens : List Token) (m : Nat) (complaint : Complaint) (actual : Token) :
    ((Reader.ofTokens tokens m).program.1 = .error (.grammar complaint actual) →
      ∃ i, ExpectsRightly (fun ts => (Reader.ofTokens ts m).program) m tokens complaint actual i) ∧
    ((Reader.ofTokens tokens m).lone.1 = .error (.grammar complaint actual) →
      ∃ i, ExpectsRightly (fun ts => (Reader.ofTokens ts m).lone) m tokens complaint actual i) := by
  constructor
  · intro herror
    rw [Reader.program_eq_readAll]
    refine (program_entry m).expectsRightly ?_
    rw [← Reader.program_eq_readAll]
    exact herror
  · intro herror
    rw [Reader.lone_eq_readAll]
    refine (lone_entry m).expectsRightly ?_
    rw [← Reader.lone_eq_readAll]
    exact herror

/-- A group and a sign use up the room of two where the operand of the first list is missing. In the
second one the sign ends with its number, and there is room for one more. -/
theorem expected_kinds_go_on_within_two :
    let program := [.printWord, .leftParen, .minus, .semicolon, .eof].map sample
    let expression := [.leftParen, .minus, .number, .star, .rightParen].map sample
    nesting (program.take 3) = 2 ∧ nesting (expression.take 4) = 1 ∧
    ((Reader.ofTokens program (2 : Nat)).program.1 = .error (.grammar .operand (sample .semicolon)) ∧
      ∃ i, ExpectsRightly (fun ts => (Reader.ofTokens ts (2 : Nat)).program) 2 program .operand
        (sample .semicolon) i) ∧
    (Reader.ofTokens expression (2 : Nat)).lone.1 = .error (.grammar .operand (sample .rightParen)) ∧
      ∃ i, ExpectsRightly (fun ts => (Reader.ofTokens ts (2 : Nat)).lone) 2 expression .operand
        (sample .rightParen) i := by
  intro program expression
  have hprogram : (Reader.ofTokens program (2 : Nat)).program.1 =
      .error (.grammar .operand (sample .semicolon)) := rfl
  have hexpression : (Reader.ofTokens expression (2 : Nat)).lone.1 =
      .error (.grammar .operand (sample .rightParen)) := rfl
  exact ⟨rfl, rfl, ⟨hprogram, (expected_kinds_go_on program 2 _ _).1 hprogram⟩, hexpression,
    (expected_kinds_go_on expression 2 _ _).2 hexpression⟩

end Reckon.Parser
