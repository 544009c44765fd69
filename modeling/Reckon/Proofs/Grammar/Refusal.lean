import Reckon.Proofs.Grammar.Recognition

/-! How tokens are refused. A reading gives up before the token it complains about, whatever stands
after that one; the tokens before can be continued, and a token of any kind it says it would accept is
a way to do so. Only for an opening parenthesis this hangs on the room that is left. -/
namespace Reckon

namespace Fault

def Blames (f : Fault) (t : Token) : Prop :=
  (t.kind = .unknown ∧ f = .lexical t) ∨ (t.kind ≠ .unknown ∧ ∃ complaint, f = .grammar complaint t)

theorem reject_blames (complaint : Complaint) (t : Token) : (reject complaint t).Blames t := by
  by_cases ht : t.kind = .unknown
  · exact .inl ⟨ht, by simp [reject, ht]⟩
  · exact .inr ⟨ht, complaint, by simp [reject, ht]⟩

def expected : Fault → List Kind
  | grammar complaint _ => complaint.expected
  | _ => []

/-- How many of the tokens from the one complained about are taken: a group or sign that nests too
deeply is refused after its first token. -/
def taken : Fault → Nat
  | grammar .nesting _ => 1
  | _ => 0

theorem mem_expected_reject {complaint : Complaint} {t : Token} {k : Kind}
    (h : k ∈ (reject complaint t).expected) : k ∈ complaint.expected := by
  by_cases ht : t.kind = .unknown
  · simp [reject, ht, expected] at h
  · simpa [reject, ht, expected] using h

theorem grammar_of_mem_expected {complaint : Complaint} {t : Token} {k : Kind}
    (h : k ∈ (reject complaint t).expected) : ∃ t', reject complaint t = .grammar complaint t' := by
  by_cases ht : t.kind = .unknown
  · simp [reject, ht, expected] at h
  · exact ⟨t, by simp [reject, ht]⟩

theorem taken_reject {complaint : Complaint} (h : complaint ≠ .nesting) (t : Token) :
    (reject complaint t).taken = 0 := by
  by_cases ht : t.kind = .unknown
  · simp [reject, ht, taken]
  · cases complaint <;> simp [reject, ht, taken] at h ⊢

end Fault

namespace Parser
open Grammar
variable {α β : Type} {stop t : Token} {f : Fault} {m : Nat} {complaint : Complaint}
  {u v w tokens ahead rest : List Token}

def Viable (R : List Token → α → Prop) (u : List Token) : Prop :=
  ∃ v a, R (u ++ v) a

/-- The reading takes `u` and gives up before the tokens ahead, because of the first of them or because
there is none. -/
structure Refuses (stop : Token) (reading : Reading α) (f : Fault) (u ahead : List Token) : Prop where
  blames : f.Blames (ahead.headD stop)
  unexpected : Ends f.expected ahead
  taken_le : f.taken ≤ ahead.length
  stuck : ∀ other, other.head? = ahead.head? →
    reading (u ++ other) = .stuck f (other.drop f.taken)

/-- A phrase may go on after `u`, and with any kind of token that the refusal asks for. An opening
parenthesis is asked for only where an operand is missing, and hangs on the room that is left. -/
structure RefusesHonestly (stop : Token) (reading : Reading α) (R : List Token → α → Prop) (f : Fault)
    (u ahead : List Token) : Prop extends Refuses stop reading f u ahead where
  viable : Viable R u
  asked : ∀ t, t.kind ∈ f.expected → t.kind ≠ .leftParen → Viable R (u ++ [t])
  opening : .leftParen ∈ f.expected → ∃ t, f = .grammar .operand t

def HonestOn (stop : Token) (reading : Reading α) (R : List Token → α → Prop) (f : Fault)
    (tokens : List Token) : Prop :=
  ∃ u ahead, tokens = u ++ ahead ∧ RefusesHonestly stop reading R f u ahead

def Honest (stop : Token) (reading : Reading α) (R : List Token → α → Prop) : Prop :=
  ∀ {tokens f rest}, reading tokens = .stuck f rest → HonestOn stop reading R f tokens

theorem Viable.of_append {R : List Token → α → Prop} (h : Viable R (u ++ v)) : Viable R u := by
  obtain ⟨v', a, ha⟩ := h
  exact ⟨v ++ v', a, by simpa using ha⟩

theorem Ends.congr {kinds : List Kind} {ts : List Token} (h : Ends kinds tokens)
    (hhead : ts.head? = tokens.head?) : Ends kinds ts := by
  rw [Ends, hhead]
  exact h

theorem Refuses.reject {reading : Reading α} (hcomplaint : complaint ≠ .nesting)
    (hends : Ends complaint.expected tokens)
    (hstuck : ∀ ts, ts.head? = tokens.head? →
      reading ts = .stuck (Fault.reject complaint (tokens.headD stop)) ts) :
    Refuses stop reading (Fault.reject complaint (tokens.headD stop)) [] tokens := by
  have htaken := Fault.taken_reject hcomplaint (tokens.headD stop)
  refine ⟨Fault.reject_blames _ _, ?_, htaken ▸ Nat.zero_le _, ?_⟩
  · intro t ht hmem
    exact hends t ht (Fault.mem_expected_reject hmem)
  · intro other hother
    rw [htaken]
    exact hstuck other hother

namespace HonestOn
variable {reading inner : Reading α} {R S : List Token → α → Prop}

/-- A refusal inside of a larger reading: the outer one takes `w` first and then gets stuck where the
inner one does. -/
theorem lift {outer : Reading β} {T : List Token → β → Prop} (w : List Token)
    (h : HonestOn stop inner R f tokens)
    (hstuck : ∀ {ts rest}, ts.head? = tokens.head? → inner ts = .stuck f rest →
      outer (w ++ ts) = .stuck f rest)
    (hviable : ∀ {v}, Viable R v → Viable T (w ++ v)) : HonestOn stop outer T f (w ++ tokens) := by
  obtain ⟨u, ahead, rfl, h⟩ := h
  refine ⟨w ++ u, ahead, by simp, ⟨h.blames, h.unexpected, h.taken_le, ?_⟩, hviable h.viable, ?_,
    h.opening⟩
  · intro other hother
    have hhead : (u ++ other).head? = (u ++ ahead).head? := by simp [List.head?_append, hother]
    rw [List.append_assoc]
    exact hstuck hhead (h.stuck other hother)
  · intro t ht hparen
    rw [List.append_assoc]
    exact hviable (h.asked t ht hparen)

theorem mono (h : HonestOn stop reading R f tokens) (hRS : ∀ {u a}, R u a → S u a) :
    HonestOn stop reading S f tokens :=
  h.lift [] (fun _ hinner => hinner) fun ⟨v, a, ha⟩ => ⟨v, a, hRS ha⟩

/-- What a reading does with other tokens than the next one at hand does not matter. -/
theorem congr (h : HonestOn stop inner R f tokens)
    (heq : ∀ ts, ts.head? = tokens.head? → reading ts = inner ts) :
    HonestOn stop reading R f tokens :=
  h.lift [] (fun hhead hinner => (heq _ hhead).trans hinner) fun hviable => hviable

theorem map {T : List Token → β → Prop} {g : α → β} (h : HonestOn stop reading R f tokens)
    (hRT : ∀ {u a}, R u a → T u (g a)) :
    HonestOn stop (fun ts => (reading ts).map g) T f tokens :=
  h.lift [] (fun _ hinner => Outcome.map_eq_stuck.mpr hinner) fun ⟨v, a, ha⟩ => ⟨v, g a, hRT ha⟩

theorem cons (heq : ∀ ts, reading (t :: ts) = inner ts)
    (h : HonestOn stop inner (fun v => R (t :: v)) f tokens) :
    HonestOn stop reading R f (t :: tokens) :=
  h.lift [t] (fun _ hinner => (heq _).trans hinner) fun hviable => hviable

/-- Two readings in a row are honest if each of them is, the second one after all that the first has
taken. -/
theorem bind {T : List Token → β → Prop} {kinds : List Kind} {next : α → Reading β}
    (hr : Recognizes reading R kinds) (hf : Honest stop reading R)
    (hfirst : ∀ {w a}, R w a → Viable T w) (h : (reading tokens).bind next = .stuck f rest)
    (hnext : ∀ {w a mid}, tokens = w ++ mid → R w a → next a mid = .stuck f rest →
      HonestOn stop (next a) (fun v => T (w ++ v)) f mid) :
    HonestOn stop (fun ts => (reading ts).bind next) T f tokens := by
  obtain hstuck | ⟨a, mid, hdone, hstuck⟩ := Outcome.bind_eq_stuck.mp h
  · refine (hf hstuck).lift [] (fun _ hinner => Outcome.bind_eq_stuck.mpr (.inl hinner)) ?_
    intro v ⟨v', a, ha⟩
    exact (hfirst ha).of_append
  · obtain ⟨w, rfl, hw, hends⟩ := hr.sound hdone
    refine (hnext rfl hw hstuck).lift w ?_ ?_
    · -- the first reading ends at the same token, whatever comes later
      intro ts rest hhead hinner
      exact Outcome.bind_eq_stuck.mpr (.inr ⟨a, ts, hr.complete hw (hends.congr hhead), hinner⟩)
    · intro v ⟨v', b, hb⟩
      exact ⟨v', b, by simpa using hb⟩

theorem reject (hcomplaint : complaint ≠ .nesting)
    (hopening : .leftParen ∈ complaint.expected → complaint = .operand) (hviable : Viable R [])
    (hasked : ∀ t, t.kind ∈ complaint.expected → t.kind ≠ .leftParen → Viable R [t])
    (hends : Ends complaint.expected tokens)
    (hstuck : ∀ {ts}, Ends complaint.expected ts →
      reading ts = .stuck (Fault.reject complaint (ts.headD stop)) ts) :
    HonestOn stop reading R (Fault.reject complaint (tokens.headD stop)) tokens := by
  refine ⟨[], tokens, rfl, .reject hcomplaint hends ?_, hviable, ?_, ?_⟩
  · intro ts hhead
    rw [hstuck (hends.congr hhead), List.headD_eq_head?_getD, hhead, List.headD_eq_head?_getD]
  · intro t ht hparen
    exact hasked t (Fault.mem_expected_reject ht) hparen
  · intro hparen
    obtain rfl := hopening (Fault.mem_expected_reject hparen)
    exact Fault.grammar_of_mem_expected hparen

theorem nesting (hviable : Viable R []) (hasked : ∀ t, t.kind = .number → Viable R [t])
    (ht : t.kind = .leftParen ∨ t.kind ∈ Kind.signs)
    (hstuck : ∀ other, reading (t :: other) = .stuck (.grammar .nesting t) other) :
    HonestOn stop reading R (.grammar .nesting t) (t :: tokens) := by
  have hkind : t.kind ≠ .unknown ∧ t.kind ∉ Complaint.nesting.expected := by
    obtain ht | ht := ht
    · rw [ht]
      decide
    · obtain ht | ht := mem_signs.mp ht <;> rw [ht] <;> decide
  refine ⟨[], t :: tokens, rfl, ⟨.inr ⟨hkind.1, .nesting, rfl⟩, ?_, ?_, ?_⟩, hviable, ?_, ?_⟩
  · exact ends_cons.mpr hkind.2
  · simp [Fault.taken]
  · intro other hother
    obtain ⟨more, rfl⟩ := List.head?_eq_some_iff.mp hother
    exact hstuck more
  · intro t' ht' _
    exact hasked t' (by simpa [Fault.expected, Complaint.expected] using ht')
  · simp [Fault.expected, Complaint.expected]

end HonestOn

theorem expect_of_ends {kind : Kind} (h : Ends [kind] tokens) :
    expect stop kind complaint tokens =
      .stuck (Fault.reject complaint (tokens.headD stop)) tokens := by
  cases tokens with
  | nil => rfl
  | cons t tokens =>
    have ht : t.kind ≠ kind := by simpa using ends_cons.mp h
    simp [expect, ht]

theorem expect_honestOn {kind : Kind} {a : α} {R : List Token → α → Prop}
    (hcomplaint : complaint.expected = [kind]) (hnesting : complaint ≠ .nesting)
    (hkind : kind ≠ .leftParen)
    (hasked : ∀ t, t.kind = kind → Viable R [t])
    (h : (expect stop kind complaint tokens).map (fun _ => a) = .stuck f rest) :
    HonestOn stop (fun ts => (expect stop kind complaint ts).map fun _ => a) R f tokens := by
  have hviable : Viable R [] := (hasked (sample kind) rfl).of_append (u := [])
  have hstuck := Outcome.map_eq_stuck.mp h
  have hends : Ends [kind] tokens := by
    by_contra hmore
    obtain ⟨t, ts, rfl, ht⟩ := exists_cons_of_not_ends hmore
    simp [expect, List.mem_singleton.mp ht] at hstuck
  rw [expect_of_ends hends] at hstuck
  obtain ⟨rfl, rfl⟩ := Outcome.stuck.inj hstuck
  refine .reject hnesting ?_ hviable ?_ (hcomplaint ▸ hends) ?_
  · intro hmem
    exact absurd (by simpa [hcomplaint] using hmem) hkind.symm
  · intro t ht _
    exact hasked t (by simpa [hcomplaint] using ht)
  · intro ts hts
    rw [hcomplaint] at hts
    exact Outcome.map_eq_stuck.mpr (expect_of_ends hts)

section Tier
variable {x y : Phrase} {ops tight : List Kind} {operand : Reading Expr} {left : Expr}

theorem loop_honestOn (hl : Level x ops y) (hr : Recognizes operand (Derives m y) tight)
    (hf : Honest stop operand (Derives m y)) (hleft : Derives m x w left)
    (h : loop ops operand left tokens = .stuck f rest) :
    HonestOn stop (loop ops operand left) (fun v => Derives m x (w ++ v)) f tokens := by
  induction hsize : tokens.length using Nat.strongRecOn generalizing tokens left w with
  | ind size ih =>
    by_cases hends : Ends ops tokens
    · rw [loop_of_ends hends] at h
      cases h
    · obtain ⟨t, ts, rfl, ht⟩ := exists_cons_of_not_ends hends
      rw [loop_cons hr ht] at h
      refine .cons (loop_cons hr ht) (.bind hr hf ?_ h ?_)
      · intro v right hv
        exact ⟨[], .binary left t right, by simpa using hleft.snoc hl ht hv⟩
      · intro v right mid hts hv hstuck
        have hshorter : mid.length < size := by
          rw [← hsize, hts, List.length_cons, List.length_append]
          omega
        have hmore := ih _ hshorter (hleft.snoc hl ht hv) hstuck rfl
        simpa using hmore

theorem tier_honest (hl : Level x ops y) (hr : Recognizes operand (Derives m y) tight)
    (hf : Honest stop operand (Derives m y)) : Honest stop (tier ops operand) (Derives m x) := by
  intro tokens f rest h
  refine .bind hr hf ?_ h ?_
  · intro w e hw
    exact ⟨[], e, by simpa using hw.alone hl⟩
  · intro w left mid _ hw hstuck
    exact loop_honestOn hl hr hf (hw.alone hl) hstuck

end Tier

section Expression

theorem viable_number (m : Nat) (ht : t.kind = .number) : Viable (Derives m .primary) [t] :=
  ⟨[], _, .number ht⟩

theorem viable_primary (m : Nat) : Viable (Derives m .primary) [] :=
  (viable_number m (t := sample .number) rfl).of_append (u := [])

theorem Viable.unary (h : Viable (Derives m .primary) u) : Viable (Derives m .unary) u := by
  obtain ⟨v, e, he⟩ := h
  exact ⟨v, e, .unsigned he⟩

theorem tiered_honest {operand : Reading Expr} (hr : Recognizes operand (Derives m .unary) [])
    (hf : Honest stop operand (Derives m .unary)) :
    Honest stop (tiered operand tiers) (Derives m .expr) := by
  have hfactor := tier_recognizes .factor (by decide) hr
  have hterm := tier_recognizes .term (by decide) hfactor
  have hcomparison := tier_recognizes .comparison (by decide) hterm
  have hhonest : Honest stop (tier Kind.equalities _) _ :=
    tier_honest .equality hcomparison
      (tier_honest .comparison hterm (tier_honest .term hfactor (tier_honest .factor hr hf)))
  intro tokens f rest h
  exact (hhonest h).mono .expr

def InnerHonest (stop : Token) (m : Nat) : Prop :=
  ∀ n, m = n + 1 → Honest stop (operand stop n) (Derives n .unary)

theorem group_honestOn {n : Nat} (hf : Honest stop (operand stop n) (Derives n .unary))
    (ht : t.kind = .leftParen)
    (h : primary stop (nested stop (n + 1)) (t :: tokens) = .stuck f rest) :
    HonestOn stop (primary stop (nested stop (n + 1))) (Derives (n + 1) .primary) f
      (t :: tokens) := by
  have hclose : ∀ {w e closing}, Derives n .expr w e → closing.kind = .rightParen →
      Derives (n + 1) .primary (t :: (w ++ [closing])) e :=
    fun he hclosing => .group ht he hclosing
  rw [primary_paren ht] at h
  refine .cons (primary_paren ht) (.bind (expression_recognizes stop n) ?_ ?_ h ?_)
  · exact tiered_honest (operand_recognizes stop n) hf
  · intro w e he
    exact ⟨[sample .rightParen], e, hclose he rfl⟩
  · intro w e mid _ he hstuck
    refine expect_honestOn rfl (by decide) (by decide) ?_ hstuck
    intro closing hclosing
    exact ⟨[], e, by simpa using hclose he hclosing⟩

theorem primary_of_ends {inside : Option (Reading Expr)} (h : Ends [.number, .leftParen] tokens) :
    primary stop inside tokens = .stuck (Fault.reject .operand (tokens.headD stop)) tokens := by
  cases tokens with
  | nil => rfl
  | cons t tokens =>
    obtain ⟨hnumber, hparen⟩ : t.kind ≠ .number ∧ t.kind ≠ .leftParen := by
      simpa using ends_cons.mp h
    simp [primary, hnumber, hparen]

theorem primary_honest (hin : InnerHonest stop m) :
    Honest stop (primary stop (nested stop m)) (Derives m .primary) := by
  intro tokens f rest h
  by_cases hends : Ends [.number, .leftParen] tokens
  · rw [primary_of_ends hends] at h
    obtain ⟨rfl, rfl⟩ := Outcome.stuck.inj h
    refine .reject (by decide) (fun _ => rfl) (viable_primary m) ?_ hends primary_of_ends
    intro t ht hparen
    exact viable_number m (by simpa [Complaint.expected, hparen] using ht)
  · obtain ⟨t, ts, rfl, hmem⟩ := exists_cons_of_not_ends hends
    by_cases hnumber : t.kind = .number
    · simp [primary, hnumber] at h
    · have hparen : t.kind = .leftParen := by simpa [hnumber] using hmem
      cases m with
      | zero =>
        have hnesting : ∀ other, primary stop (nested stop 0) (t :: other) =
            .stuck (.grammar .nesting t) other := by
          intro other
          simp [primary, nested, hparen]
        rw [hnesting] at h
        obtain ⟨rfl, rfl⟩ := Outcome.stuck.inj h
        exact .nesting (viable_primary 0) (fun t ht => viable_number 0 ht) (.inl hparen) hnesting
      | succ n => exact group_honestOn (hin n rfl) hparen h

theorem signed_honest (hin : InnerHonest stop m) :
    Honest stop (signed stop (nested stop m)) (Derives m .unary) := by
  intro tokens f rest h
  by_cases hends : Ends Kind.signs tokens
  · rw [signed_of_ends hends] at h
    exact ((primary_honest hin h).mono .unsigned).congr fun ts hts => signed_of_ends (hends.congr hts)
  · obtain ⟨t, ts, rfl, ht⟩ := exists_cons_of_not_ends hends
    cases m with
    | zero =>
      have hnesting : ∀ other, signed stop (nested stop 0) (t :: other) =
          .stuck (.grammar .nesting t) other := by
        intro other
        simp [signed, nested, ht]
      rw [hnesting] at h
      obtain ⟨rfl, rfl⟩ := Outcome.stuck.inj h
      exact .nesting (viable_primary 0).unary (fun t ht => (viable_number 0 ht).unary) (.inr ht)
        hnesting
    | succ n =>
      rw [signed_cons ht] at h
      have hinner := hin n rfl (Outcome.map_eq_stuck.mp h)
      exact .cons (signed_cons ht) (hinner.map fun he => .signed (mem_signs.mp ht) he)

theorem operand_honest (stop : Token) (m : Nat) :
    Honest stop (operand stop m) (Derives m .unary) := by
  induction m with
  | zero =>
    rw [operand_eq_signed]
    exact signed_honest fun k hk => absurd hk (by omega)
  | succ n ih =>
    rw [operand_eq_signed]
    refine signed_honest fun k hk => ?_
    obtain rfl : n = k := by omega
    exact ih

theorem expression_honest (stop : Token) (m : Nat) :
    Honest stop (expression stop m) (Derives m .expr) :=
  tiered_honest (operand_recognizes stop m) (operand_honest stop m)

end Expression

section Program

theorem ended_honest (stop : Token) (m : Nat) (complaint : Complaint)
    (hcomplaint : complaint.expected = [.semicolon]) :
    Honest stop (ended stop m complaint) (Ended m) := by
  have hnesting : complaint ≠ .nesting := by
    rintro rfl
    cases hcomplaint
  have hclose : ∀ {w e semicolon}, Derives m .expr w e → semicolon.kind = .semicolon →
      Ended m (w ++ [semicolon]) e :=
    fun he hkind => ⟨_, _, rfl, hkind, he⟩
  intro tokens f rest h
  refine .bind (expression_recognizes stop m) (expression_honest stop m) ?_ h ?_
  · intro w e he
    exact ⟨[sample .semicolon], e, hclose he rfl⟩
  · intro w e mid _ he hstuck
    refine expect_honestOn hcomplaint hnesting (by decide) ?_ hstuck
    intro semicolon hkind
    exact ⟨[], e, by simpa using hclose he hkind⟩

theorem statement_honest (stop : Token) (m : Nat) :
    Honest stop (statement stop m) (Statement m) := by
  intro tokens f rest h
  by_cases hends : Ends [.printWord] tokens
  · rw [statement_of_ends hends] at h
    have hended := ended_honest stop m .afterExpression rfl (Outcome.map_eq_stuck.mp h)
    refine (hended.map ?_).congr fun ts hts => statement_of_ends (hends.congr hts)
    rintro u e ⟨v, semicolon, rfl, hkind, he⟩
    exact .expression he hkind
  · obtain ⟨t, ts, rfl, hmem⟩ := exists_cons_of_not_ends hends
    have ht : t.kind = .printWord := by simpa using hmem
    rw [statement_print ht] at h
    have hended := ended_honest stop m .afterValue rfl (Outcome.map_eq_stuck.mp h)
    refine .cons (statement_print ht) (hended.map ?_)
    rintro u e ⟨v, semicolon, rfl, hkind, he⟩
    exact .print ht he hkind

theorem program_honest (stop : Token) (m : Nat) :
    Honest stop (program stop m) (Grammar.Program m) := by
  intro tokens
  induction hsize : tokens.length using Nat.strongRecOn generalizing tokens with
  | ind size ih =>
    intro f rest h
    cases tokens with
    | nil => simp [program, statements] at h
    | cons t tokens =>
      rw [program_cons] at h
      have hrun := HonestOn.bind (statement_recognizes stop m) (statement_honest stop m)
        (fun {w s} hs => ⟨[], [s], Grammar.Program.cons hs .nil⟩) h ?_
      · refine hrun.congr fun ts hts => ?_
        cases ts with
        | nil => simp at hts
        | cons t ts => exact program_cons ts
      · intro w s mid htokens hs hstuck
        have hpos := List.length_pos_iff.mpr hs.ne_nil
        have hshorter : mid.length < size := by
          rw [← hsize, htokens, List.length_append]
          omega
        have hmore := ih _ hshorter rfl (Outcome.map_eq_stuck.mp hstuck)
        exact hmore.map fun hp => .cons hs hp

theorem lone_trailing {e : Expr} (he : Derives m .expr u e) (ht : t.kind ∉ tiers.flatten)
    (more : List Token) :
    lone stop m (u ++ t :: more) = .stuck (Fault.reject .trailing t) (t :: more) := by
  have hends : Ends tiers.flatten (t :: more) := ends_cons.mpr ht
  have hexpr := (expression_recognizes stop m).complete he hends
  exact Outcome.bind_eq_stuck.mpr (.inr ⟨e, t :: more, hexpr, rfl⟩)

/-- A lone expression is refused as the expression is, or because more tokens come after it. -/
theorem lone_stuck (h : lone stop m tokens = .stuck f rest) :
    HonestOn stop (lone stop m) (Derives m .expr) f tokens ∨
      ∃ u t more e, tokens = u ++ t :: more ∧ f = Fault.reject .trailing t ∧ Derives m .expr u e ∧
        t.kind ∉ tiers.flatten := by
  obtain hstuck | ⟨e, mid, hdone, hstuck⟩ := Outcome.bind_eq_stuck.mp h
  · have hinner := expression_honest stop m hstuck
    exact .inl (hinner.lift [] (fun _ hstuck => Outcome.bind_eq_stuck.mpr (.inl hstuck)) id)
  · obtain ⟨u, rfl, he, hends⟩ := (expression_recognizes stop m).sound hdone
    cases mid with
    | nil => cases hstuck
    | cons t more =>
      obtain ⟨rfl, rfl⟩ := Outcome.stuck.inj hstuck
      exact .inr ⟨u, t, more, e, rfl, rfl, he, ends_cons.mp hends⟩

end Program

end Parser
end Reckon
