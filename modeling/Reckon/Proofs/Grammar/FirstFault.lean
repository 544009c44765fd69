import Reckon.Proofs.Grammar.Refusal

/-! Where reading fails. A fault is reported at the first token that no phrase can have in its
place: what stands before it can still be completed, and with it nothing can. The second half comes
from the readings themselves, which never look past the token they complain about. -/
namespace Reckon.Parser
open Grammar
variable {α : Type} {stop : Token} {f : Fault} {m : Nat} {u tokens rest : List Token}

/-- The reading of a list of tokens gets stuck at the token after `u`, and would do so whatever came
after that token; or `u` is all there is. -/
inductive Blocked (stop : Token) (reading : Reading α) (f : Fault) (u : List Token) :
    List Token → Prop
  | token {t : Token} {more : List Token} : f.Blames t →
      (∀ other, ∃ rest, reading (u ++ t :: other) = .stuck f rest) →
      Blocked stop reading f u (u ++ t :: more)
  | ending : f.Blames stop → (∃ rest, reading u = .stuck f rest) → Blocked stop reading f u u

def StuckLate (stop : Token) (reading : Reading α) (R : List Token → α → Prop) (f : Fault)
    (tokens : List Token) : Prop :=
  ∃ u, Viable R u ∧ Blocked stop reading f u tokens

def FailsLate (stop : Token) (reading : Reading α) (R : List Token → α → Prop) : Prop :=
  ∀ {tokens f rest}, reading tokens = .stuck f rest → StuckLate stop reading R f tokens

section Late
variable {reading : Reading α} {R : List Token → α → Prop}

theorem HonestOn.stuckLate (h : HonestOn stop reading R f tokens) :
    StuckLate stop reading R f tokens := by
  obtain ⟨u, ahead, rfl, h⟩ := h
  refine ⟨u, h.viable, ?_⟩
  cases ahead with
  | nil =>
    rw [List.append_nil]
    exact .ending h.blames ⟨_, by simpa using h.stuck [] rfl⟩
  | cons t more => exact .token h.blames fun other => ⟨_, h.stuck (t :: other) rfl⟩

theorem program_failsLate (stop : Token) (m : Nat) :
    FailsLate stop (program stop m) (Grammar.Program m) := by
  intro tokens f rest h
  exact (program_honest stop m h).stuckLate

theorem lone_failsLate (stop : Token) (m : Nat) :
    FailsLate stop (lone stop m) (Derives m .expr) := by
  intro tokens f rest h
  obtain hhonest | ⟨u, t, more, e, rfl, rfl, he, ht⟩ := lone_stuck h
  · exact hhonest.stuckLate
  · refine ⟨u, ⟨[], e, by simpa using he⟩, .token (Fault.reject_blames .trailing t) ?_⟩
    intro other
    exact ⟨_, lone_trailing he ht other⟩

end Late

/-- The fault stands at index `i` of the tokens, or at the token that ends them. The tokens before
it can be completed; together with it they cannot, and at the end they are no phrase themselves. -/
structure FirstFault (R : List Token → α → Prop) (stop : Token) (u : List Token) (f : Fault)
    (i : Nat) : Prop where
  inside : i ≤ u.length
  blames : f.Blames (u[i]?.getD stop)
  viable : Viable R (u.take i)
  hopeless : i < u.length → ¬ Viable R (u.take (i + 1))
  incomplete : i = u.length → ¬ ∃ a, R u a

theorem FailsLate.firstFault {reading : Reading α} {R : List Token → α → Prop}
    (hf : FailsLate stop reading R) (hread : ∀ {u a}, R u a → reading u = .done a [])
    (h : reading tokens = .stuck f rest) : ∃ i, FirstFault R stop tokens f i := by
  obtain ⟨u, hviable, hblocked⟩ := hf h
  refine ⟨u.length, ?_⟩
  cases hblocked with
  | @token t more hblames hstuck =>
    constructor
    · simp
    · simpa using hblames
    · simpa using hviable
    · intro _ ⟨v, a, ha⟩
      -- a phrase that went on from the token would be read whole, but the reading is stuck there
      have htake : (u ++ t :: more).take (u.length + 1) = u ++ [t] := by
        rw [List.take_append, List.take_of_length_le (by omega)]
        simp
      rw [htake, List.append_assoc] at ha
      obtain ⟨rest, hrest⟩ := hstuck v
      have hdone : reading (u ++ t :: v) = .done a [] := hread ha
      rw [hdone] at hrest
      cases hrest
    · intro hlength
      simp at hlength
  | ending hblames hstuck =>
    constructor
    · exact Nat.le_refl _
    · simpa using hblames
    · simpa using hviable
    · intro hlength
      exact absurd hlength (Nat.lt_irrefl _)
    · intro _ ⟨a, ha⟩
      rw [hread ha] at h
      cases h

theorem parse_firstFault {f : Fault} (h : parse tokens = .error f) :
    ∃ i, FirstFault (Grammar.Program 64) (Parser.stop tokens) (body tokens) f i := by
  obtain ⟨rest, hstuck⟩ := Outcome.result_eq_error.mp h
  exact FailsLate.firstFault (program_failsLate _ 64) (program_complete _) hstuck

theorem parseExpression_firstFault {f : Fault} (h : parseExpression tokens = .error f) :
    ∃ i, FirstFault (Derives 64 .expr) (Parser.stop tokens) (body tokens) f i := by
  obtain ⟨rest, hstuck⟩ := Outcome.result_eq_error.mp h
  exact FailsLate.firstFault (lone_failsLate _ 64) (lone_complete _) hstuck

/-- Reading a program, or one expression, fails at the first hopeless token. The token is blamed as
its kind demands, also where only the limit on groups and signs forbids it. -/
theorem faults_at_first_hopeless_token (tokens : List Token) (m : Nat) (f : Fault) :
    ((Reader.ofTokens tokens m).program.1 = .error f →
      ∃ i, FirstFault (Grammar.Program m) (Parser.stop tokens) (body tokens) f i) ∧
    ((Reader.ofTokens tokens m).lone.1 = .error f →
      ∃ i, FirstFault (Derives m .expr) (Parser.stop tokens) (body tokens) f i) := by
  constructor
  · intro h
    rw [Reader.program_ofTokens] at h
    obtain ⟨rest, hstuck⟩ := Outcome.result_eq_error.mp h
    exact FailsLate.firstFault (program_failsLate _ m) (program_complete _) hstuck
  · intro h
    rw [Reader.lone_ofTokens] at h
    obtain ⟨rest, hstuck⟩ := Outcome.result_eq_error.mp h
    exact FailsLate.firstFault (lone_failsLate _ m) (lone_complete _) hstuck

/-- The sign inside the group is one level too many. -/
theorem faults_at_sign_beyond_limit :
    let tokens := [.leftParen, .minus, .number, .rightParen, .semicolon].map sample
    let f := Fault.grammar .nesting (sample .minus)
    ((Reader.ofTokens tokens (1 : Nat)).program.1 = .error f ∧
      ∃ i, FirstFault (Grammar.Program 1) (Parser.stop tokens) (body tokens) f i) ∧
    ((Reader.ofTokens tokens (1 : Nat)).lone.1 = .error f ∧
      ∃ i, FirstFault (Derives 1 .expr) (Parser.stop tokens) (body tokens) f i) := by
  intro tokens f
  have hprogram : (Reader.ofTokens tokens (1 : Nat)).program.1 = .error f := rfl
  have hlone : (Reader.ofTokens tokens (1 : Nat)).lone.1 = .error f := rfl
  have hfaults := faults_at_first_hopeless_token tokens 1 f
  exact ⟨⟨hprogram, hfaults.1 hprogram⟩, ⟨hlone, hfaults.2 hlone⟩⟩

end Reckon.Parser
