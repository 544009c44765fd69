import Reckon.Proofs.Reader.Descent

/-! Readers in use. A reader may be called again and again, also after a call that failed in the middle
of a group. Each call leaves some of the tokens at hand, so the place only moves on; and since a descent
takes its count back, nothing is open between calls. -/
namespace Reckon.Parser

/-- What a reader can be asked for. Expressions and equalities are operations with no tier left out,
comparisons, terms, factors and signed operands those with one to four. -/
inductive Call where
  | peek
  | atEnd
  | sees (kinds : List Kind)
  | pull
  | eat (kind : Kind)
  | consume (kind : Kind) (text : String)
  | operation (loosest : Nat)
  | primary
  | statement
  | program
  | lone
deriving DecidableEq, Repr

def Call.reads : Call → Bool
  | operation _ => true
  | primary => true
  | statement => true
  | lone => true
  | _ => false

inductive Reply where
  | token (t : Token)
  | truth (b : Bool)
  | tree (e : Expr)
  | statement (s : Stmt)
  | program (p : List Stmt)
deriving DecidableEq, Repr

def replied {α : Type} (f : α → Reply) (out : Except Fault α × Reader) :
    Except Fault Reply × Reader :=
  (out.1.map f, out.2)

namespace Reader

def answer (r : Reader) : Call → Except Fault Reply × Reader
  | .peek => (.ok (.token r.peek), r)
  | .atEnd => (.ok (.truth r.atEnd), r)
  | .sees kinds => (.ok (.truth (r.sees kinds)), r)
  | .pull => (.ok (.token r.pull.1), r.pull.2)
  | .eat kind => (.ok (.truth (r.eat kind).1), (r.eat kind).2)
  | .consume kind text => replied .token (r.consume kind text)
  | .operation loosest => replied .tree (r.operation loosest)
  | .primary => replied .tree r.primary
  | .statement => replied .statement r.statement
  | .program => replied .program r.program
  | .lone => replied .tree r.lone

def descend (r : Reader) : Call → Except Fault Reply × Reader
  | .peek => replied .token (Descent.peek.runFrom r)
  | .atEnd => replied .truth (Descent.atEnd.runFrom r)
  | .sees kinds => replied .truth ((Descent.sees kinds).runFrom r)
  | .pull => replied .token (Descent.pull.runFrom r)
  | .eat kind => replied .truth ((Descent.eat kind).runFrom r)
  | .consume kind text => replied .token ((Descent.consume kind (.other text [kind])).runFrom r)
  | .operation loosest => replied .tree ((Descent.operation loosest).runFrom r)
  | .primary => replied .tree (Descent.alone.runFrom r)
  | .statement => replied .statement (Descent.statement.runFrom r)
  | .program => replied .program (Descent.program.runFrom r)
  | .lone => replied .tree (Descent.lone.runFrom r)

def after (r : Reader) (calls : List Call) : Reader :=
  calls.foldl (fun r c => (r.descend c).2) r

variable {r : Reader} {ts : List Token} {c : Call}

theorem Sound.ready (h : r.Sound) : r.Ready r.tokens r.room := ⟨rfl, rfl, h⟩

theorem descend_eq_answer (h : r.Sound) (c : Call) : r.descend c = r.answer c := by
  have hr := h.ready
  cases c with
  | peek => rw [descend, Descent.runFrom_peek h]; rfl
  | atEnd => rw [descend, Descent.runFrom_atEnd h]; rfl
  | sees kinds => rw [descend, Descent.runFrom_sees h]; rfl
  | pull => rw [descend, Descent.runFrom_pull h]; rfl
  | eat kind => rw [descend, Descent.runFrom_eat h]; rfl
  | consume kind text => rw [descend, (Descent.consume_follows _ _ _ _ r hr).runFrom_eq]; rfl
  | operation loosest => rw [descend, (Descent.operation_follows _ _ _ r hr).runFrom_eq]; rfl
  | primary => rw [descend, (Descent.alone_follows _ _ r hr).runFrom_eq]; rfl
  | statement => rw [descend, (Descent.statement_follows _ _ r hr).runFrom_eq]; rfl
  | program => rw [descend, (Descent.program_follows _ _ r hr).runFrom_eq]; rfl
  | lone => rw [descend, (Descent.lone_follows _ _ r hr).runFrom_eq]; rfl

/-- Whatever is called, and however it ends, the reader is left before some last ones of the tokens at
hand, and as it was in all else. -/
theorem exists_atRest (h : r.Sound) (c : Call) : ∃ ts, ts <:+ r.rest ∧ (r.answer c).2 = r.atRest ts := by
  have hr := h.ready
  have hstay : ∃ ts, ts <:+ r.rest ∧ r = r.atRest ts := ⟨r.rest, List.suffix_refl _, h.atRest_rest.symm⟩
  have hpull : ∃ ts, ts <:+ r.rest ∧ r.pull.2 = r.atRest ts := ⟨_, List.tail_suffix _, rfl⟩
  cases c with
  | peek => exact hstay
  | atEnd => exact hstay
  | sees kinds => exact hstay
  | pull => exact hpull
  | eat kind =>
    rw [answer, eat]
    cases r.sees [kind] with
    | true => exact hpull
    | false => exact hstay
  | consume kind text => exact ⟨_, (Descent.consume_follows _ _ _ _ r hr).suffix, rfl⟩
  | operation loosest => exact ⟨_, (Descent.operation_follows _ _ _ r hr).suffix, rfl⟩
  | primary => exact ⟨_, (Descent.alone_follows _ _ r hr).suffix, rfl⟩
  | statement => exact ⟨_, (Descent.statement_follows _ _ r hr).suffix, rfl⟩
  | program => exact ⟨_, (Descent.program_follows _ _ r hr).suffix, rfl⟩
  | lone => exact ⟨_, (Descent.lone_follows _ _ r hr).suffix, rfl⟩

/-- Each call keeps the place sound and moves it forward only, and leaves everything else. -/
theorem Sound.step (h : r.Sound) (c : Call) :
    (r.descend c).2.Sound ∧ r.position ≤ (r.descend c).2.position ∧
      (r.descend c).2 = { r with position := (r.descend c).2.position } := by
  obtain ⟨ts, hts, heq⟩ := exists_atRest h c
  rw [descend_eq_answer h, heq]
  refine ⟨.atRest r ts, ?_, rfl⟩
  have hplace := sound_iff.mp h
  have hlength := hts.length_le
  rw [rest, List.length_drop] at hlength
  simp only [Reader.atRest]
  omega

/-- What holds after each call holds after all of them. -/
theorem Sound.after (h : r.Sound) (calls : List Call) :
    (r.after calls).Sound ∧
      r.after calls = { r with position := (r.after calls).position } := by
  induction calls generalizing r with
  | nil => exact ⟨h, rfl⟩
  | cons c calls ih =>
    obtain ⟨hsound, -, hstep⟩ := h.step c
    obtain ⟨hafter, hrest⟩ := ih hsound
    refine ⟨hafter, ?_⟩
    change (r.descend c).2.after calls = { r with position := ((r.descend c).2.after calls).position }
    generalize (r.descend c).2.after calls = last at hrest ⊢
    rw [hrest, hstep]

theorem sound_ofTokens (tokens : List Token) (limit : Int) : (ofTokens tokens limit).Sound :=
  ⟨Nat.zero_le _, by simp [ofTokens]⟩

section Progress
variable {α : Type} {reading : Reading α} {operand : Reading Expr} {ops : List Kind} {e : Expr}
  {left : Expr} {rest : List Token} {fuel : Nat}

def Consumes (reading : Reading α) : Prop :=
  ∀ {ts a rest}, reading ts = .done a rest → rest.length < ts.length

theorem consumes_of_recognizes {R : List Token → α → Prop} {kinds : List Kind}
    (hr : Recognizes reading R kinds) (hne : ∀ {u a}, R u a → u ≠ []) : Consumes reading := by
  intro ts a rest h
  obtain ⟨u, rfl, hu, -⟩ := hr.sound h
  have hpos := List.length_pos_iff.mpr (hne hu)
  rw [List.length_append]
  omega

theorem derives_ne_nil {m : Nat} {x : Grammar.Phrase} {u : List Token}
    (h : Grammar.Derives m x u e) : u ≠ [] := by
  obtain ⟨t, v, rfl, -⟩ := h.starts
  exact List.cons_ne_nil t v

theorem foldTier_length_le (h : Consumes operand)
    (hdone : foldTier ops operand fuel left ts = .done e rest) : rest.length ≤ ts.length := by
  induction fuel generalizing left ts with
  | zero =>
    cases hdone
    exact Nat.le_refl _
  | succ fuel ih =>
    by_cases hends : Ends ops ts
    · rw [foldTier_of_ends hends] at hdone
      cases hdone
      exact Nat.le_refl _
    · obtain ⟨t, ts, rfl, ht⟩ := exists_cons_of_not_ends hends
      simp only [foldTier, ht, if_true] at hdone
      obtain ⟨right, mid, hright, hmore⟩ := Outcome.bind_eq_done.mp hdone
      have hoperand := h hright
      have hrest := ih hmore
      rw [List.length_cons]
      omega

theorem tiered_consumes (h : Consumes operand) (tiers : List (List Kind)) :
    Consumes (tiered operand tiers) := by
  induction tiers with
  | nil => exact h
  | cons ops tiers ih =>
    intro ts e rest hdone
    obtain ⟨left, mid, hleft, hmore⟩ := Outcome.bind_eq_done.mp hdone
    exact Nat.lt_of_le_of_lt (foldTier_length_le ih hmore) (ih hleft)

theorem operand_consumes (stop : Token) (room : Nat) : Consumes (Parser.operand stop room) :=
  consumes_of_recognizes (operand_recognizes stop room) derives_ne_nil

theorem primary_consumes (stop : Token) (room : Nat) :
    Consumes (Parser.primary stop (nested stop room)) := by
  refine consumes_of_recognizes (primary_recognizes fun n hn => ?_) derives_ne_nil
  exact operand_recognizes stop n

theorem lone_consumes (stop : Token) (room : Nat) : Consumes (Parser.lone stop room) := by
  intro ts e rest h
  obtain ⟨rfl, he⟩ := lone_sound h
  exact List.length_pos_iff.mpr (derives_ne_nil he)

theorem Sound.run_moves {f : α → Reply} {reply : Reply} (h : r.Sound) (hreading : Consumes reading)
    (hok : (replied f (r.run reading)).1 = .ok reply) :
    r.position < (replied f (r.run reading)).2.position := by
  cases hout : reading r.rest with
  | stuck g rest => simp [replied, run, hout, Outcome.result, Except.map] at hok
  | done a rest =>
    have htaken := hreading hout
    have hplace := sound_iff.mp h
    rw [Reader.rest, List.length_drop] at htaken
    simp only [replied, run, hout, Outcome.rest, Reader.atRest]
    omega

theorem Sound.moves {reply : Reply} (h : r.Sound) (hreads : c.reads = true)
    (hok : (r.answer c).1 = .ok reply) : r.position < (r.answer c).2.position := by
  cases c with
  | operation loosest =>
    exact h.run_moves (tiered_consumes (operand_consumes _ _) _) hok
  | primary => exact h.run_moves (primary_consumes _ _) hok
  | statement => exact h.run_moves statement_shorter hok
  | lone => exact h.run_moves (lone_consumes _ _) hok
  | _ => cases hreads

end Progress

/-- Whatever a reader has been called for, and however those calls ended, the next call leaves nothing
open and a place no earlier than before, inside the list and behind no token of kind `eof`; and if it
reads an expression or a statement, the place has moved. Counting what is open, or reading lists of
tokens instead, makes no difference. -/
theorem stays_sound (tokens : List Token) (m : Nat) (calls : List Call) (c : Call) :
    let r := (ofTokens tokens m).after calls
    let out := r.descend c
    out.2.depth = 0 ∧ r.position ≤ out.2.position ∧ out.2.position ≤ tokens.length ∧
    (∀ t ∈ tokens.take out.2.position, t.kind ≠ .eof) ∧
    (c.reads = true → ∀ reply, out.1 = .ok reply → r.position < out.2.position) ∧
    out.2.tokens = tokens ∧ out.2.limit = m ∧ out = r.answer c := by
  intro r out
  obtain ⟨hsound, hr⟩ := (sound_ofTokens tokens m).after calls
  obtain ⟨hafter, hforward, hout⟩ := hsound.step c
  have hanswer := descend_eq_answer hsound c
  have htokens : out.2.tokens = tokens := by rw [hout, hr]; rfl
  have hdepth : out.2.depth = 0 := by rw [hout, hr]; rfl
  have hlimit : out.2.limit = m := by rw [hout, hr]; rfl
  have hinside := hafter.inside
  have hbefore := hafter.before
  rw [htokens] at hinside hbefore
  refine ⟨hdepth, hforward, hinside, hbefore, ?_, htokens, hlimit, hanswer⟩
  intro hreads reply hok
  change r.descend c = r.answer c at hanswer
  change (r.descend c).1 = .ok reply at hok
  rw [hanswer] at hok
  change r.position < (r.descend c).2.position
  rw [hanswer]
  exact hsound.moves hreads hok

def brokenGroup : List Token :=
  [.leftParen, .minus, .semicolon, .number, .semicolon].map Grammar.sample

/-- Two levels are open where the first call fails. The semicolon met there is stepped over, and then a
statement is read. -/
theorem stays_sound_after_fault :
    ((ofTokens brokenGroup (2 : Nat)).descend (.operation 0)).1 =
      .error (.grammar .operand (Grammar.sample .semicolon)) ∧
    let r := (ofTokens brokenGroup (2 : Nat)).after [.operation 0, .pull]
    (r.descend .statement).2.depth = 0 ∧ r.position < (r.descend .statement).2.position := by
  have hok : (((ofTokens brokenGroup (2 : Nat)).after [.operation 0, .pull]).descend .statement).1 =
      .ok (.statement (.expression (.literal (Grammar.sample .number)))) := by decide +kernel
  obtain ⟨hdepth, -, -, -, hmoves, -⟩ :=
    stays_sound brokenGroup 2 [.operation 0, .pull] .statement
  exact ⟨by decide +kernel, hdepth, hmoves rfl _ hok⟩

end Reader
end Reckon.Parser
