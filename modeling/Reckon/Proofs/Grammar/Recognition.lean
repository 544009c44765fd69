import Mathlib.Data.List.TakeWhile
import Reckon.Program.Reader
import Reckon.Proofs.Grammar

/-! Reading tokens and deriving them are the same: a reading is done exactly on the phrases of the
grammar, with the tree of the derivation. No ambiguity is assumed away; that a list of tokens has
one tree at most is a consequence. -/
namespace Reckon.Parser
open Grammar
variable {α β : Type}

namespace Outcome
variable {o : Outcome α} {a : α} {b : β} {fault : Fault} {rest : List Token}

theorem bind_eq_done {f : α → List Token → Outcome β} :
    o.bind f = .done b rest ↔ ∃ a mid, o = .done a mid ∧ f a mid = .done b rest := by
  cases o with
  | done a mid =>
    constructor
    · intro h
      exact ⟨a, mid, rfl, h⟩
    · intro ⟨_, _, heq, h⟩
      cases heq
      exact h
  | stuck g mid => simp [bind]

theorem bind_eq_stuck {f : α → List Token → Outcome β} :
    o.bind f = .stuck fault rest ↔
      o = .stuck fault rest ∨ ∃ a mid, o = .done a mid ∧ f a mid = .stuck fault rest := by
  cases o with
  | done a mid =>
    constructor
    · intro h
      exact .inr ⟨a, mid, rfl, h⟩
    · intro h
      cases h with
      | inl h => cases h
      | inr h =>
        obtain ⟨_, _, heq, h⟩ := h
        cases heq
        exact h
  | stuck g mid => simp [bind]

theorem map_eq_done {f : α → β} :
    o.map f = .done b rest ↔ ∃ a, o = .done a rest ∧ f a = b := by
  cases o with
  | done a mid =>
    constructor
    · intro h
      cases h
      exact ⟨a, rfl, rfl⟩
    · intro ⟨_, heq, hb⟩
      cases heq
      exact congrArg (done · rest) hb
  | stuck g mid => simp [map]

theorem map_eq_stuck {f : α → β} : o.map f = .stuck fault rest ↔ o = .stuck fault rest := by
  cases o with
  | done a mid => simp [map]
  | stuck g mid => simp [map]

theorem result_eq_ok : o.result = .ok a ↔ ∃ rest, o = .done a rest := by
  cases o with
  | done a mid => simp [result]
  | stuck g mid => simp [result]

theorem result_eq_error : o.result = .error fault ↔ ∃ rest, o = .stuck fault rest := by
  cases o with
  | done a mid => simp [result]
  | stuck g mid => simp [result]

end Outcome

section Ends
variable {kinds more : List Kind} {t : Token} {tokens rest : List Token}

def Ends (kinds : List Kind) (rest : List Token) : Prop :=
  ∀ t ∈ rest.head?, t.kind ∉ kinds

theorem ends_nil (kinds : List Kind) : Ends kinds [] := by
  simp [Ends]

theorem ends_cons : Ends kinds (t :: rest) ↔ t.kind ∉ kinds := by
  simp [Ends]

theorem ends_none (rest : List Token) : Ends [] rest := by
  simp [Ends]

theorem ends_append : Ends (kinds ++ more) rest ↔ Ends kinds rest ∧ Ends more rest := by
  cases rest with
  | nil => simp [ends_nil]
  | cons t rest => simp [ends_cons]

theorem exists_cons_of_not_ends (h : ¬ Ends kinds tokens) :
    ∃ t ts, tokens = t :: ts ∧ t.kind ∈ kinds := by
  cases tokens with
  | nil => exact absurd (ends_nil kinds) h
  | cons t ts => exact ⟨t, ts, rfl, by simpa [ends_cons] using h⟩

end Ends

/-- A reading takes exactly the phrases of `R`, and as much as it can: no phrase is left before one
of the kinds, which would make it longer. -/
structure Recognizes (reading : Reading α) (R : List Token → α → Prop) (kinds : List Kind) :
    Prop where
  sound : ∀ {tokens a rest}, reading tokens = .done a rest →
    ∃ u, tokens = u ++ rest ∧ R u a ∧ Ends kinds rest
  complete : ∀ {u a rest}, R u a → Ends kinds rest → reading (u ++ rest) = .done a rest

theorem Recognizes.length_le {reading : Reading α} {R : List Token → α → Prop} {kinds : List Kind}
    {tokens rest : List Token} {a : α} (hr : Recognizes reading R kinds)
    (h : reading tokens = .done a rest) : rest.length ≤ tokens.length := by
  obtain ⟨u, rfl, -⟩ := hr.sound h
  simp

theorem expect_eq_done {stop t : Token} {kind : Kind} {complaint : Complaint}
    {tokens rest : List Token} :
    expect stop kind complaint tokens = .done t rest ↔ tokens = t :: rest ∧ t.kind = kind := by
  cases tokens with
  | nil => simp [expect]
  | cons s tokens =>
    constructor
    · intro h
      by_cases hs : s.kind = kind
      · simp only [expect, hs, if_true] at h
        cases h
        exact ⟨rfl, hs⟩
      · simp [expect, hs] at h
    · intro ⟨heq, ht⟩
      cases heq
      simp [expect, ht]

section Tier
variable {m fuel : Nat} {x y : Phrase} {ops tight : List Kind} {operand : Reading Expr}
  {left e : Expr} {w rest rest' : List Token} {R : List Token → Expr → Prop}

theorem foldTier_of_ends (h : Ends ops rest) :
    foldTier ops operand fuel left rest = .done left rest := by
  cases fuel with
  | zero => rfl
  | succ fuel =>
    cases rest with
    | nil => rfl
    | cons t rest => simp [foldTier, ends_cons.mp h]

/-- Fuel beyond the number of tokens makes no difference. -/
theorem foldTier_fuel {fuel' : Nat} (hr : Recognizes operand R tight) (hfuel : rest.length ≤ fuel)
    (hfuel' : rest.length ≤ fuel') :
    foldTier ops operand fuel left rest = foldTier ops operand fuel' left rest := by
  induction fuel generalizing fuel' left rest with
  | zero =>
    have hnil : rest = [] := List.length_eq_zero_iff.mp (by omega)
    subst hnil
    rw [foldTier_of_ends (ends_nil ops), foldTier_of_ends (ends_nil ops)]
  | succ fuel ih =>
    cases rest with
    | nil => rw [foldTier_of_ends (ends_nil ops), foldTier_of_ends (ends_nil ops)]
    | cons t rest =>
      simp only [List.length_cons] at hfuel hfuel'
      cases fuel' with
      | zero => omega
      | succ fuel' =>
        by_cases ht : t.kind ∈ ops
        · simp only [foldTier, ht, if_true]
          cases hoperand : operand rest with
          | stuck g mid => rfl
          | done right mid =>
            have hlen := hr.length_le hoperand
            exact ih (by omega) (by omega)
        · simp [foldTier, ht]

def loop (ops : List Kind) (operand : Reading Expr) (left : Expr) : Reading Expr := fun rest =>
  foldTier ops operand rest.length left rest

theorem loop_of_ends (h : Ends ops rest) : loop ops operand left rest = .done left rest :=
  foldTier_of_ends h

theorem loop_cons (hr : Recognizes operand R tight) {t : Token} (ht : t.kind ∈ ops)
    (rest : List Token) :
    loop ops operand left (t :: rest) =
      (operand rest).bind fun right => loop ops operand (.binary left t right) := by
  simp only [loop, List.length_cons, foldTier, ht, if_true]
  cases hoperand : operand rest with
  | stuck g mid => rfl
  | done right mid => exact foldTier_fuel hr (hr.length_le hoperand) (Nat.le_refl _)

theorem loop_sound (hl : Level x ops y) (hr : Recognizes operand (Derives m y) tight)
    (hleft : Derives m x w left) (hrest : Ends tight rest)
    (h : loop ops operand left rest = .done e rest') :
    ∃ v, rest = v ++ rest' ∧ Derives m x (w ++ v) e ∧ Ends (ops ++ tight) rest' := by
  induction hsize : rest.length using Nat.strongRecOn generalizing rest left w with
  | ind size ih =>
    by_cases hends : Ends ops rest
    · rw [loop_of_ends hends] at h
      cases h
      exact ⟨[], rfl, by simpa using hleft, ends_append.mpr ⟨hends, hrest⟩⟩
    · obtain ⟨t, ts, rfl, ht⟩ := exists_cons_of_not_ends hends
      rw [loop_cons hr ht] at h
      obtain ⟨right, mid, hright, hmore⟩ := Outcome.bind_eq_done.mp h
      have hlen := hr.length_le hright
      obtain ⟨v, rfl, hv, hmid⟩ := hr.sound hright
      have hshorter : mid.length < size := by
        rw [← hsize, List.length_cons]
        omega
      -- the round just read is part of the phrase that the next ones extend
      obtain ⟨v', rfl, hv', hends'⟩ := ih _ hshorter (hleft.snoc hl ht hv) hmid hmore rfl
      exact ⟨t :: (v ++ v'), by simp, by simpa using hv', hends'⟩

/-- The loop takes all rounds there are. An operand ends before every operator of the rule, for
none of them belongs to a tighter rule. -/
theorem loop_complete (hr : Recognizes operand (Derives m y) tight)
    (hapart : ∀ k ∈ ops, k ∉ tight) {rounds : List Round} (hops : ∀ r ∈ rounds, r.op.kind ∈ ops)
    (hrounds : ∀ r ∈ rounds, Derives m y r.tokens r.tree) (hrest : Ends (ops ++ tight) rest) :
    Ends tight (spelled rounds ++ rest) ∧
      loop ops operand left (spelled rounds ++ rest) = .done (folded left rounds) rest := by
  induction rounds generalizing left with
  | nil =>
    have hboth := ends_append.mp hrest
    exact ⟨hboth.2, loop_of_ends hboth.1⟩
  | cons r rounds ih =>
    have hop : r.op.kind ∈ ops := hops r (by simp)
    have hmore := fun left => @ih left (fun r' h => hops r' (List.mem_cons_of_mem r h))
      (fun r' h => hrounds r' (List.mem_cons_of_mem r h))
    have hoperand := hr.complete (hrounds r (by simp)) (hmore left).1
    refine ⟨ends_cons.mpr (hapart _ hop), ?_⟩
    rw [spelled_cons, List.cons_append, loop_cons hr hop, List.append_assoc, hoperand]
    exact (hmore (.binary left r.op r.tree)).2

theorem tier_recognizes (hl : Level x ops y) (hapart : ∀ k ∈ ops, k ∉ tight)
    (hr : Recognizes operand (Derives m y) tight) :
    Recognizes (tier ops operand) (Derives m x) (ops ++ tight) where
  sound := by
    intro tokens e rest h
    obtain ⟨left, mid, hleft, hloop⟩ := Outcome.bind_eq_done.mp h
    obtain ⟨u, rfl, hu, hmid⟩ := hr.sound hleft
    obtain ⟨v, rfl, hv, hends⟩ := loop_sound hl hr (hu.alone hl) hmid hloop
    exact ⟨u ++ v, by simp, hv, hends⟩
  complete := by
    intro u e rest h hrest
    obtain ⟨v, first, rounds, hfirst, hops, hrounds, rfl, rfl⟩ := h.rounds hl
    have hloop := fun left => @loop_complete m y ops tight operand left rest hr hapart rounds hops
      hrounds hrest
    have hoperand := hr.complete hfirst (hloop first).1
    rw [List.append_assoc]
    exact Outcome.bind_eq_done.mpr ⟨first, spelled rounds ++ rest, hoperand, (hloop first).2⟩

end Tier

section Expression
variable {stop t : Token} {m n : Nat} {tokens rest u : List Token} {e : Expr}

theorem tiered_recognizes {operand : Reading Expr} (hr : Recognizes operand (Derives m .unary) []) :
    Recognizes (tiered operand tiers) (Derives m .expr) tiers.flatten := by
  -- what decides each time is that no operator belongs to two rules
  have hfactor := tier_recognizes .factor (by decide) hr
  have hterm := tier_recognizes .term (by decide) hfactor
  have hcomparison := tier_recognizes .comparison (by decide) hterm
  have hequality := tier_recognizes .equality (by decide) hcomparison
  constructor
  · intro tokens e rest h
    obtain ⟨u, htokens, hu, hends⟩ := hequality.sound h
    exact ⟨u, htokens, .expr hu, hends⟩
  · intro u e rest h hends
    exact hequality.complete (derives_expr_iff.mp h) hends

theorem operand_eq_signed (stop : Token) (m : Nat) :
    operand stop m = signed stop (nested stop m) := by
  cases m <;> rfl

theorem primary_paren (ht : t.kind = .leftParen) (ts : List Token) :
    primary stop (nested stop (n + 1)) (t :: ts) =
      (expression stop n ts).bind fun e rest =>
        (expect stop .rightParen .closing rest).map fun _ => e := by
  simp [primary, nested, ht, expression]

theorem signed_cons (ht : t.kind ∈ Kind.signs) (ts : List Token) :
    signed stop (nested stop (n + 1)) (t :: ts) = (operand stop n ts).map (.unary t) := by
  simp [signed, nested, ht]

theorem signed_of_ends {inside : Option (Reading Expr)} (h : Ends Kind.signs tokens) :
    signed stop inside tokens = primary stop inside tokens := by
  cases tokens with
  | nil => rfl
  | cons t tokens => simp [signed, ends_cons.mp h]

theorem mem_signs {k : Kind} : k ∈ Kind.signs ↔ k = .plus ∨ k = .minus := by
  simp [Kind.signs]

def Inner (stop : Token) (m : Nat) : Prop :=
  ∀ n, m = n + 1 → Recognizes (operand stop n) (Derives n .unary) []

theorem primary_recognizes (hin : Inner stop m) :
    Recognizes (primary stop (nested stop m)) (Derives m .primary) [] where
  sound := by
    intro tokens e rest h
    cases tokens with
    | nil => simp [primary] at h
    | cons t tokens =>
      by_cases hnumber : t.kind = .number
      · simp only [primary, hnumber, if_true] at h
        cases h
        exact ⟨[t], rfl, .number hnumber, ends_none _⟩
      · by_cases hparen : t.kind = .leftParen
        · cases m with
          | zero => simp [primary, nested, hparen] at h
          | succ n =>
            rw [primary_paren hparen] at h
            obtain ⟨e', mid, hexpr, hmore⟩ := Outcome.bind_eq_done.mp h
            obtain ⟨closing, hclosing, rfl⟩ := Outcome.map_eq_done.mp hmore
            obtain ⟨rfl, hkind⟩ := expect_eq_done.mp hclosing
            obtain ⟨u, rfl, hu, -⟩ := (tiered_recognizes (hin n rfl)).sound hexpr
            exact ⟨t :: (u ++ [closing]), by simp, .group hparen hu hkind, ends_none _⟩
        · simp [primary, hnumber, hparen] at h
  complete := by
    intro u e rest h _
    cases h with
    | number ht => simp [primary, ht]
    | @group n opening u closing e hopening he hclosing =>
      -- a closing parenthesis is no operator, so the expression inside ends before it
      have hends : Ends tiers.flatten (closing :: rest) := by
        rw [ends_cons, hclosing]
        decide
      have hexpr := (tiered_recognizes (hin n rfl)).complete he hends
      have hexpect := (@expect_eq_done stop closing .rightParen .closing _ rest).mpr ⟨rfl, hclosing⟩
      rw [List.cons_append, List.append_assoc, primary_paren hopening]
      exact Outcome.bind_eq_done.mpr
        ⟨e, closing :: rest, hexpr, Outcome.map_eq_done.mpr ⟨closing, hexpect, rfl⟩⟩
    | level _ hl => cases hl

theorem signed_recognizes (hin : Inner stop m) :
    Recognizes (signed stop (nested stop m)) (Derives m .unary) [] where
  sound := by
    intro tokens e rest h
    by_cases hends : Ends Kind.signs tokens
    · rw [signed_of_ends hends] at h
      obtain ⟨u, htokens, hu, hrest⟩ := (primary_recognizes hin).sound h
      exact ⟨u, htokens, .unsigned hu, hrest⟩
    · obtain ⟨t, ts, rfl, ht⟩ := exists_cons_of_not_ends hends
      cases m with
      | zero => simp [signed, nested, ht] at h
      | succ n =>
        rw [signed_cons ht] at h
        obtain ⟨e', hoperand, rfl⟩ := Outcome.map_eq_done.mp h
        obtain ⟨u, rfl, hu, hrest⟩ := (hin n rfl).sound hoperand
        exact ⟨t :: u, rfl, .signed (mem_signs.mp ht) hu, hrest⟩
  complete := by
    intro u e rest h hrest
    cases h with
    | @signed n op u e hop he =>
      rw [List.cons_append, signed_cons (mem_signs.mpr hop), (hin n rfl).complete he hrest]
      rfl
    | unsigned h =>
      have hends : Ends Kind.signs (u ++ rest) := by
        obtain ⟨t, v, rfl, ht⟩ := h.primary_starts
        rw [List.cons_append, ends_cons, mem_signs]
        cases ht with
        | inl hnumber => simp [hnumber]
        | inr hparen => simp [hparen]
      rw [signed_of_ends hends]
      exact (primary_recognizes hin).complete h hrest
    | level _ hl => cases hl

theorem operand_recognizes (stop : Token) (m : Nat) :
    Recognizes (operand stop m) (Derives m .unary) [] := by
  induction m with
  | zero =>
    rw [operand_eq_signed]
    exact signed_recognizes fun k hk => absurd hk (by omega)
  | succ n ih =>
    rw [operand_eq_signed]
    refine signed_recognizes fun k hk => ?_
    obtain rfl : n = k := by omega
    exact ih

theorem expression_recognizes (stop : Token) (m : Nat) :
    Recognizes (expression stop m) (Derives m .expr) tiers.flatten :=
  tiered_recognizes (operand_recognizes stop m)

end Expression

section Program
variable {stop t : Token} {m : Nat} {u tokens rest : List Token} {s : Stmt} {p : List Stmt} {e : Expr}

def Ended (m : Nat) (u : List Token) (e : Expr) : Prop :=
  ∃ v semicolon, u = v ++ [semicolon] ∧ semicolon.kind = .semicolon ∧ Derives m .expr v e

theorem ended_recognizes (stop : Token) (m : Nat) (complaint : Complaint) :
    Recognizes (ended stop m complaint) (Ended m) [] where
  sound := by
    intro tokens e rest h
    obtain ⟨e', mid, hexpr, hmore⟩ := Outcome.bind_eq_done.mp h
    obtain ⟨semicolon, hexpect, rfl⟩ := Outcome.map_eq_done.mp hmore
    obtain ⟨rfl, hkind⟩ := expect_eq_done.mp hexpect
    obtain ⟨v, rfl, hv, -⟩ := (expression_recognizes stop m).sound hexpr
    exact ⟨v ++ [semicolon], by simp, ⟨v, semicolon, rfl, hkind, hv⟩, ends_none rest⟩
  complete := by
    intro u e rest h _
    obtain ⟨v, semicolon, rfl, hkind, hv⟩ := h
    have hends : Ends tiers.flatten (semicolon :: rest) := by
      rw [ends_cons, hkind]
      decide
    have hexpr := (expression_recognizes stop m).complete hv hends
    have hexpect := (@expect_eq_done stop semicolon .semicolon complaint _ rest).mpr ⟨rfl, hkind⟩
    rw [List.append_assoc]
    exact Outcome.bind_eq_done.mpr
      ⟨e, semicolon :: rest, hexpr, Outcome.map_eq_done.mpr ⟨semicolon, hexpect, rfl⟩⟩

theorem statement_of_ends (h : Ends [.printWord] tokens) :
    statement stop m tokens = (ended stop m .afterExpression tokens).map .expression := by
  cases tokens with
  | nil => rfl
  | cons t tokens =>
    have ht : t.kind ≠ .printWord := by simpa using ends_cons.mp h
    simp [statement, ht]

theorem statement_print (ht : t.kind = .printWord) (ts : List Token) :
    statement stop m (t :: ts) = (ended stop m .afterValue ts).map (.print t.pos) := by
  simp [statement, ht]

theorem statement_recognizes (stop : Token) (m : Nat) :
    Recognizes (statement stop m) (Statement m) [] where
  sound := by
    intro tokens s rest h
    by_cases hends : Ends [.printWord] tokens
    · rw [statement_of_ends hends] at h
      obtain ⟨e, hended, rfl⟩ := Outcome.map_eq_done.mp h
      obtain ⟨u, htokens, hu, hrest⟩ := (ended_recognizes stop m _).sound hended
      obtain ⟨v, semicolon, rfl, hkind, hv⟩ := hu
      exact ⟨v ++ [semicolon], htokens, .expression hv hkind, hrest⟩
    · obtain ⟨t, ts, rfl, hmem⟩ := exists_cons_of_not_ends hends
      have ht : t.kind = .printWord := by simpa using hmem
      rw [statement_print ht] at h
      obtain ⟨e, hended, rfl⟩ := Outcome.map_eq_done.mp h
      obtain ⟨u, rfl, hu, hrest⟩ := (ended_recognizes stop m _).sound hended
      obtain ⟨v, semicolon, rfl, hkind, hv⟩ := hu
      exact ⟨t :: (v ++ [semicolon]), rfl, .print ht hv hkind, hrest⟩
  complete := by
    intro u s rest h hrest
    cases h with
    | @print keyword v e semicolon hprint he hkind =>
      have hended := (ended_recognizes stop m .afterValue).complete
        ⟨v, semicolon, rfl, hkind, he⟩ hrest
      rw [List.cons_append, statement_print hprint, hended]
      rfl
    | @expression v e semicolon he hkind =>
      have hended := (ended_recognizes stop m .afterExpression).complete
        ⟨v, semicolon, rfl, hkind, he⟩ hrest
      have hends : Ends [.printWord] (v ++ [semicolon] ++ rest) := by
        obtain ⟨t, v, rfl, ht⟩ := he.starts
        rw [List.cons_append, List.cons_append, ends_cons]
        intro hmem
        rw [List.mem_singleton.mp hmem] at ht
        exact absurd ht (by decide)
      rw [statement_of_ends hends, hended]
      rfl

theorem statement_shorter (h : statement stop m tokens = .done s rest) :
    rest.length < tokens.length := by
  obtain ⟨v, rfl, hs, -⟩ := (statement_recognizes stop m).sound h
  have hpos := List.length_pos_iff.mpr hs.ne_nil
  simp only [List.length_append]
  omega

theorem statements_fuel {fuel fuel' : Nat} (hfuel : tokens.length ≤ fuel)
    (hfuel' : tokens.length ≤ fuel') :
    statements stop m fuel tokens = statements stop m fuel' tokens := by
  induction fuel generalizing fuel' tokens with
  | zero =>
    have hnil : tokens = [] := List.length_eq_zero_iff.mp (by omega)
    subst hnil
    simp [statements]
  | succ fuel ih =>
    cases tokens with
    | nil => simp [statements]
    | cons t tokens =>
      cases fuel' with
      | zero => simp at hfuel'
      | succ fuel' =>
        simp only [statements]
        cases hs : statement stop m (t :: tokens) with
        | stuck g mid => rfl
        | done s mid =>
          have hlen := statement_shorter hs
          have hmid : statements stop m fuel mid = statements stop m fuel' mid :=
            ih (by omega) (by omega)
          simp only [Outcome.bind, hmid]

theorem program_cons (rest : List Token) :
    program stop m (t :: rest) =
      (statement stop m (t :: rest)).bind fun s ts => (program stop m ts).map (s :: ·) := by
  simp only [program, List.length_cons, statements]
  cases hs : statement stop m (t :: rest) with
  | stuck g mid => rfl
  | done s mid =>
    have hlen := statement_shorter hs
    simp only [List.length_cons] at hlen
    simp only [Outcome.bind]
    rw [statements_fuel (by omega) (Nat.le_refl mid.length)]

theorem program_sound (h : program stop m tokens = .done p rest) :
    rest = [] ∧ Grammar.Program m tokens p := by
  induction hsize : tokens.length using Nat.strongRecOn generalizing tokens p with
  | ind size ih =>
    cases tokens with
    | nil =>
      simp only [program, statements] at h
      cases h
      exact ⟨rfl, .nil⟩
    | cons t tokens =>
      rw [program_cons] at h
      obtain ⟨s, mid, hs, hmore⟩ := Outcome.bind_eq_done.mp h
      obtain ⟨p', hp', rfl⟩ := Outcome.map_eq_done.mp hmore
      obtain ⟨v, hv, hstatement, -⟩ := (statement_recognizes stop m).sound hs
      obtain ⟨hrest, hprogram⟩ := ih mid.length (hsize ▸ statement_shorter hs) hp' rfl
      rw [hv]
      exact ⟨hrest, .cons hstatement hprogram⟩

theorem program_complete (stop : Token) (h : Grammar.Program m u p) :
    program stop m u = .done p [] := by
  induction h with
  | nil => simp [program, statements]
  | @cons u s v p hs _ ih =>
    have hread := (statement_recognizes stop m).complete hs (ends_none v)
    obtain ⟨t, u, rfl⟩ := List.exists_cons_of_ne_nil hs.ne_nil
    rw [List.cons_append, program_cons]
    exact Outcome.bind_eq_done.mpr ⟨s, v, hread, Outcome.map_eq_done.mpr ⟨p, ih, rfl⟩⟩

/-- Statements before the tokens at hand are read first, whatever comes of the rest. -/
theorem program_append (h : Grammar.Program m u p) (rest : List Token) :
    program stop m (u ++ rest) = (program stop m rest).map (p ++ ·) := by
  induction h with
  | nil =>
    rw [List.nil_append]
    cases program stop m rest <;> rfl
  | @cons u s v p hs _ ih =>
    have hread := (statement_recognizes stop m).complete hs (ends_none (v ++ rest))
    obtain ⟨t, u, rfl⟩ := List.exists_cons_of_ne_nil hs.ne_nil
    rw [List.append_assoc, List.cons_append, program_cons, ← List.cons_append, hread]
    simp only [Outcome.bind, ih]
    cases program stop m rest <;> rfl

theorem lone_sound (h : lone stop m tokens = .done e rest) :
    rest = [] ∧ Derives m .expr tokens e := by
  obtain ⟨e', mid, hexpr, hmore⟩ := Outcome.bind_eq_done.mp h
  obtain ⟨u, rfl, hu, -⟩ := (expression_recognizes stop m).sound hexpr
  cases mid with
  | nil =>
    cases hmore
    exact ⟨rfl, by simpa using hu⟩
  | cons t mid => cases hmore

theorem lone_complete (stop : Token) (h : Derives m .expr u e) : lone stop m u = .done e [] := by
  have hexpr := (expression_recognizes stop m).complete h (ends_nil _)
  rw [List.append_nil] at hexpr
  exact Outcome.bind_eq_done.mpr ⟨e, [], hexpr, rfl⟩

/-- Two derivations of the same tokens spell the same program, whatever their bounds. -/
theorem program_unique {n : Nat} {q : List Stmt} (hp : Grammar.Program m u p)
    (hq : Grammar.Program n u q) : p = q := by
  have hread := program_complete (Token.eofAt Pos.start) (hp.mono (Nat.le_max_left m n))
  have hread' := program_complete (Token.eofAt Pos.start) (hq.mono (Nat.le_max_right m n))
  rw [hread] at hread'
  injection hread'

theorem derives_unique {n : Nat} {d : Expr} (he : Derives m .expr u e) (hd : Derives n .expr u d) :
    e = d := by
  have hread := lone_complete (Token.eofAt Pos.start) (he.mono (Nat.le_max_left m n))
  have hread' := lone_complete (Token.eofAt Pos.start) (hd.mono (Nat.le_max_right m n))
  rw [hread] at hread'
  injection hread'

end Program

section Reader
variable {tokens : List Token} {m : Nat}

theorem Reader.program_ofTokens (tokens : List Token) (m : Nat) :
    (Reader.ofTokens tokens m).program.1 =
      (Parser.program (stop tokens) m (body tokens)).result := by
  simp [Reader.program, Reader.run, Reader.rest, Reader.room, Reader.ofTokens]

theorem Reader.lone_ofTokens (tokens : List Token) (m : Nat) :
    (Reader.ofTokens tokens m).lone.1 = (Parser.lone (stop tokens) m (body tokens)).result := by
  simp [Reader.lone, Reader.run, Reader.rest, Reader.room, Reader.ofTokens]

theorem parse_eq_reader (tokens : List Token) :
    parse tokens = (Reader.ofTokens tokens (64 : Nat)).program.1 :=
  (Reader.program_ofTokens tokens 64).symm

theorem parseExpression_eq_reader (tokens : List Token) :
    parseExpression tokens = (Reader.ofTokens tokens (64 : Nat)).lone.1 :=
  (Reader.lone_ofTokens tokens 64).symm

theorem reader_program_eq_ok {p : List Stmt} :
    (Reader.ofTokens tokens m).program.1 = .ok p ↔ Grammar.Program m (body tokens) p := by
  rw [Reader.program_ofTokens, Outcome.result_eq_ok]
  constructor
  · intro ⟨rest, h⟩
    exact (program_sound h).2
  · intro h
    exact ⟨[], program_complete _ h⟩

theorem reader_lone_eq_ok {e : Expr} :
    (Reader.ofTokens tokens m).lone.1 = .ok e ↔ Derives m .expr (body tokens) e := by
  rw [Reader.lone_ofTokens, Outcome.result_eq_ok]
  constructor
  · intro ⟨rest, h⟩
    exact (lone_sound h).2
  · intro h
    exact ⟨[], lone_complete _ h⟩

theorem parse_eq_ok {p : List Stmt} :
    parse tokens = .ok p ↔ Grammar.Program 64 (body tokens) p := by
  rw [parse_eq_reader, reader_program_eq_ok]

theorem parseExpression_eq_ok {e : Expr} :
    parseExpression tokens = .ok e ↔ Derives 64 .expr (body tokens) e := by
  rw [parseExpression_eq_reader, reader_lone_eq_ok]

section Ending
variable {u v : List Token} {last : Token}

theorem body_of_eof (hu : ∀ t ∈ u, t.kind ≠ .eof) (hlast : last.kind = .eof) :
    body (u ++ last :: v) = u := by
  have hall : ∀ t ∈ u, (t.kind != .eof) = true := by simpa using hu
  rw [body, List.takeWhile_append_of_pos hall]
  simp [hlast]

/-- A list without an end is all body. -/
theorem body_eq_self (hu : ∀ t ∈ u, t.kind ≠ .eof) : body u = u := by
  have hall : ∀ t ∈ u, (t.kind != .eof) = true := by simpa using hu
  exact List.takeWhile_eq_self_iff.mpr hall

theorem stop_of_eof (hu : ∀ t ∈ u, t.kind ≠ .eof) (hlast : last.kind = .eof) :
    stop (u ++ last :: v) = last := by
  have hnone : u.find? (·.kind == .eof) = none := by simpa using hu
  simp [stop, hnone, hlast]

theorem body_ne_eof (tokens : List Token) : ∀ t ∈ body tokens, t.kind ≠ .eof := by
  intro t ht
  simpa using List.mem_takeWhile_imp ht

/-- An expression and a semicolon are a program of one statement. -/
theorem parse_statement {semicolon : Token} {e : Expr} (he : Derives 64 .expr u e)
    (hkind : semicolon.kind = .semicolon) (hlast : last.kind = .eof) :
    parse (u ++ [semicolon, last]) = .ok [.expression e] := by
  have hprogram := Grammar.Program.cons (.expression he hkind) .nil
  rw [List.append_nil] at hprogram
  have hfront : ∀ t ∈ u ++ [semicolon], t.kind ≠ .eof := hprogram.kind_ne (by decide)
  have hbody : body (u ++ [semicolon, last]) = u ++ [semicolon] := by
    rw [← body_of_eof (v := []) hfront hlast, List.append_assoc]
    rfl
  rw [parse_eq_ok, hbody]
  exact hprogram

end Ending

/-- A list of tokens is read as a program, or as one expression, exactly if the tokens before the
first end derive it within the limit; `parse` and `parseExpression` are the same with the usual
limit; and no list of tokens derives two trees. -/
theorem reads_exactly_what_derives (tokens : List Token) (m : Nat) :
    (∀ p, (Reader.ofTokens tokens m).program.1 = .ok p ↔ Grammar.Program m (body tokens) p) ∧
    (∀ e, (Reader.ofTokens tokens m).lone.1 = .ok e ↔ Derives m .expr (body tokens) e) ∧
    (∀ p, parse tokens = .ok p ↔ Grammar.Program 64 (body tokens) p) ∧
    (∀ e, parseExpression tokens = .ok e ↔ Derives 64 .expr (body tokens) e) ∧
    (∀ n u p q, Grammar.Program m u p → Grammar.Program n u q → p = q) ∧
    (∀ n u d e, Derives m .expr u d → Derives n .expr u e → d = e) := by
  refine ⟨fun p => reader_program_eq_ok, fun e => reader_lone_eq_ok, fun p => ?_, fun e => ?_,
    fun n u p q => program_unique, fun n u d e => derives_unique⟩
  · rw [parse_eq_reader, reader_program_eq_ok]
  · rw [parseExpression_eq_reader, reader_lone_eq_ok]

theorem reads_print_of_signed_group :
    let tokens := [.printWord, .leftParen, .minus, .number, .rightParen, .semicolon].map sample
    let p := [Stmt.print Pos.start (.unary (sample .minus) (.literal (sample .number)))]
    Grammar.Program 2 tokens p ∧ Grammar.Program 64 tokens p ∧
      ∀ q, Grammar.Program 64 tokens q → p = q := by
  intro tokens p
  have hexact := reads_exactly_what_derives tokens 2
  have hderived : Grammar.Program 2 tokens p := (hexact.1 p).mp rfl
  exact ⟨hderived, (hexact.2.2.1 p).mp rfl, fun q => hexact.2.2.2.2.1 64 tokens p q hderived⟩

end Reader

end Reckon.Parser
