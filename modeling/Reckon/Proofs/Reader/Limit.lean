import Reckon.Proofs.Reader.Calls

/-! One list of tokens under two limits. The smaller one may stop a reading at a group or sign that it
leaves no room for. A reading that it does not stop never meets it, and goes as under the larger one. -/
namespace Reckon.Parser
variable {α β : Type} {tight wide : Reading α} {inner outer : Reading Expr}

def Outcome.TooDeep (o : Outcome α) : Prop := ∃ t rest, o = .stuck (.grammar .nesting t) rest

def CutShort (tight wide : Reading α) : Prop := ∀ ts, (tight ts).TooDeep ∨ tight ts = wide ts

theorem CutShort.refl (reading : Reading α) : CutShort reading reading := fun _ => .inr rfl

theorem Outcome.TooDeep.bind {o : Outcome α} (h : o.TooDeep) (next : α → Reading β) :
    (o.bind next).TooDeep := by
  obtain ⟨t, rest, rfl⟩ := h
  exact ⟨t, rest, rfl⟩

theorem Outcome.TooDeep.map {o : Outcome α} (h : o.TooDeep) (f : α → β) : (o.map f).TooDeep := by
  obtain ⟨t, rest, rfl⟩ := h
  exact ⟨t, rest, rfl⟩

theorem CutShort.bind {next next' : α → Reading β} (h : CutShort tight wide)
    (hnext : ∀ a, CutShort (next a) (next' a)) :
    CutShort (fun ts => (tight ts).bind next) (fun ts => (wide ts).bind next') := by
  intro ts
  obtain hdeep | heq := h ts
  · exact .inl (hdeep.bind next)
  · simp only [heq]
    cases wide ts with
    | done a rest => exact hnext a rest
    | stuck f rest => exact .inr rfl

theorem CutShort.map (h : CutShort tight wide) (f : α → β) :
    CutShort (fun ts => (tight ts).map f) (fun ts => (wide ts).map f) := by
  intro ts
  obtain hdeep | heq := h ts
  · exact .inl (hdeep.map f)
  · exact .inr (congrArg (Outcome.map f) heq)

section Expression
variable {stop : Token} {m m' : Nat}

/-- Each round steps over one operator, and its operand is cut short or read alike. -/
theorem foldTier_cutShort (h : CutShort inner outer) (ops : List Kind) (fuel : Nat) (left : Expr) :
    CutShort (foldTier ops inner fuel left) (foldTier ops outer fuel left) := by
  induction fuel generalizing left with
  | zero => exact .refl _
  | succ fuel ih =>
    intro ts
    cases ts with
    | nil => exact .inr rfl
    | cons t ts =>
      simp only [foldTier]
      split
      · exact h.bind (fun right => ih (.binary left t right)) ts
      · exact .inr rfl

theorem tier_cutShort (h : CutShort inner outer) (ops : List Kind) :
    CutShort (tier ops inner) (tier ops outer) :=
  h.bind fun left rest => foldTier_cutShort h ops rest.length left rest

theorem tiered_cutShort (h : CutShort inner outer) (tiers : List (List Kind)) :
    CutShort (tiered inner tiers) (tiered outer tiers) := by
  induction tiers with
  | nil => exact h
  | cons ops tiers ih => exact tier_cutShort ih ops

inductive Narrower : Option (Reading Expr) → Option (Reading Expr) → Prop
  | none (outer : Option (Reading Expr)) : Narrower none outer
  | some {inner outer : Reading Expr} (h : CutShort inner outer) : Narrower (some inner) (some outer)

theorem primary_cutShort {less more : Option (Reading Expr)} (h : Narrower less more) :
    CutShort (primary stop less) (primary stop more) := by
  intro ts
  cases ts with
  | nil => exact .inr rfl
  | cons t ts =>
    by_cases hparen : t.kind = .leftParen
    · cases h with
      | none => exact .inl ⟨t, ts, by simp [primary, hparen]⟩
      | some h =>
        have hclosed := (tiered_cutShort h tiers).bind fun e =>
          (CutShort.refl (expect stop .rightParen .closing)).map fun _ => e
        simpa [primary, hparen] using hclosed ts
    · exact .inr (by simp [primary, hparen])

theorem signed_cutShort {less more : Option (Reading Expr)} (h : Narrower less more) :
    CutShort (signed stop less) (signed stop more) := by
  intro ts
  by_cases hends : Ends Kind.signs ts
  · rw [signed_of_ends hends, signed_of_ends hends]
    exact primary_cutShort h ts
  · obtain ⟨t, ts, rfl, ht⟩ := exists_cons_of_not_ends hends
    cases h with
    | none => exact .inl ⟨t, ts, by simp [signed, ht]⟩
    | some h => simpa [signed, ht] using h.map (Expr.unary t) ts

theorem operand_cutShort (stop : Token) (h : m ≤ m') :
    CutShort (operand stop m) (operand stop m') := by
  induction m generalizing m' with
  | zero =>
    rw [operand_eq_signed stop m']
    exact signed_cutShort (.none _)
  | succ m ih =>
    obtain ⟨n, rfl⟩ : ∃ n, m' = n + 1 := ⟨m' - 1, by omega⟩
    exact signed_cutShort (.some (ih (by omega)))

theorem nested_narrower (stop : Token) (h : m ≤ m') : Narrower (nested stop m) (nested stop m') := by
  cases m with
  | zero => exact .none _
  | succ m =>
    obtain ⟨n, rfl⟩ : ∃ n, m' = n + 1 := ⟨m' - 1, by omega⟩
    exact .some (operand_cutShort stop (by omega))

theorem expression_cutShort (stop : Token) (h : m ≤ m') :
    CutShort (expression stop m) (expression stop m') :=
  tiered_cutShort (operand_cutShort stop h) tiers

theorem ended_cutShort (stop : Token) (h : m ≤ m') (complaint : Complaint) :
    CutShort (ended stop m complaint) (ended stop m' complaint) :=
  (expression_cutShort stop h).bind fun e =>
    (CutShort.refl (expect stop .semicolon complaint)).map fun _ => e

theorem statement_cutShort (stop : Token) (h : m ≤ m') :
    CutShort (statement stop m) (statement stop m') := by
  intro ts
  by_cases hends : Ends [.printWord] ts
  · rw [statement_of_ends hends, statement_of_ends hends]
    exact (ended_cutShort stop h .afterExpression).map Stmt.expression ts
  · obtain ⟨t, ts, rfl, ht⟩ := exists_cons_of_not_ends hends
    rw [statement_print (List.mem_singleton.mp ht), statement_print (List.mem_singleton.mp ht)]
    exact (ended_cutShort stop h .afterValue).map (Stmt.print t.pos) ts

theorem statements_cutShort (stop : Token) (h : m ≤ m') (fuel : Nat) :
    CutShort (statements stop m fuel) (statements stop m' fuel) := by
  induction fuel with
  | zero =>
    intro ts
    cases ts <;> exact .inr rfl
  | succ fuel ih =>
    intro ts
    cases ts with
    | nil => exact .inr rfl
    | cons t ts => exact (statement_cutShort stop h).bind (fun s => ih.map (s :: ·)) (t :: ts)

theorem program_cutShort (stop : Token) (h : m ≤ m') : CutShort (program stop m) (program stop m') :=
  fun ts => statements_cutShort stop h ts.length ts

theorem lone_cutShort (stop : Token) (h : m ≤ m') : CutShort (lone stop m) (lone stop m') :=
  (expression_cutShort stop h).bind fun _ => .refl _

end Expression

namespace Reader
variable {r : Reader} {limit : Int}

/-- The first run meets a group or sign without room, or both end alike and at one place. -/
def AlikeUnlessTooDeep (out out' : Except Fault α × Reader) : Prop :=
  (∃ t, out.1 = .error (.grammar .nesting t)) ∨
    (out.1 = out'.1 ∧ out.2.position = out'.2.position)

theorem AlikeUnlessTooDeep.replied {out out' : Except Fault α × Reader} (h : AlikeUnlessTooDeep out out')
    (f : α → Reply) : AlikeUnlessTooDeep (Parser.replied f out) (Parser.replied f out') := by
  obtain ⟨t, ht⟩ | ⟨hsame, hplace⟩ := h
  · exact .inl ⟨t, by simp [Parser.replied, ht, Except.map]⟩
  · exact .inr ⟨by simp [Parser.replied, hsame], hplace⟩

theorem run_alike (h : CutShort tight wide) (r : Reader) (limit : Int) :
    AlikeUnlessTooDeep (r.run tight) ({ r with limit := limit }.run wide) := by
  have hrest : { r with limit := limit }.rest = r.rest := rfl
  obtain ⟨t, rest, hdeep⟩ | heq := h r.rest
  · exact .inl ⟨t, by simp [run, hdeep, Outcome.result]⟩
  · refine .inr ⟨?_, ?_⟩ <;> simp only [run, hrest, heq, atRest]

theorem room_le (h : r.limit ≤ limit) : r.room ≤ { r with limit := limit }.room := by
  simp only [room]
  omega

theorem Sound.withLimit (h : r.Sound) (limit : Int) : { r with limit := limit }.Sound :=
  ⟨h.inside, h.before⟩

theorem answer_alike (h : r.limit ≤ limit) (c : Call) :
    AlikeUnlessTooDeep (r.answer c) ({ r with limit := limit }.answer c) := by
  have hroom := room_le h
  cases c with
  | peek => exact .inr ⟨rfl, rfl⟩
  | atEnd => exact .inr ⟨rfl, rfl⟩
  | sees kinds => exact .inr ⟨rfl, rfl⟩
  | pull => exact .inr ⟨rfl, rfl⟩
  | eat kind =>
    have hsees : { r with limit := limit }.sees [kind] = r.sees [kind] := rfl
    rw [answer, answer, eat, eat, hsees]
    cases r.sees [kind] <;> exact .inr ⟨rfl, rfl⟩
  | consume kind text => exact (run_alike (.refl _) r limit).replied _
  | operation loosest =>
    exact (run_alike (tiered_cutShort (operand_cutShort _ hroom) _) r limit).replied _
  | primary => exact (run_alike (primary_cutShort (nested_narrower _ hroom)) r limit).replied _
  | statement => exact (run_alike (statement_cutShort _ hroom) r limit).replied _
  | program => exact (run_alike (program_cutShort _ hroom) r limit).replied _
  | lone => exact (run_alike (lone_cutShort _ hroom) r limit).replied _

/-- The same for descents, from every sound place. -/
theorem descend_alike (h : r.Sound) (hlimit : r.limit ≤ limit) (c : Call) :
    AlikeUnlessTooDeep (r.descend c) ({ r with limit := limit }.descend c) := by
  rw [descend_eq_answer h, descend_eq_answer (h.withLimit limit)]
  exact answer_alike hlimit c

/-- Whatever tokens are read, and whether as a program, as a lone expression or by any other call: under
the smaller limit a group or sign nests too deeply, or the reply is that under the larger limit, a tree
or a fault, and so is the place where the reader is left. -/
theorem limit_only_stops_deep_readings (tokens : List Token) {m m' : Nat} (h : m ≤ m') (c : Call) :
    AlikeUnlessTooDeep ((ofTokens tokens m).descend c) ((ofTokens tokens m').descend c) ∧
      AlikeUnlessTooDeep ((ofTokens tokens m).answer c) ((ofTokens tokens m').answer c) := by
  have hlimit : (ofTokens tokens m).limit ≤ (m' : Int) := Int.ofNat_le.mpr h
  exact ⟨descend_alike (sound_ofTokens tokens m) hlimit c, answer_alike hlimit c⟩

def signedGroup : List Token :=
  [.leftParen, .minus, .number, .rightParen, .semicolon].map Grammar.sample

/-- The limit 1 stops the reading at the sign, and the limits 2 and 5 do not. -/
theorem limit_stops_signedGroup :
    ((ofTokens signedGroup (1 : Nat)).descend .program).1 =
      .error (.grammar .nesting (Grammar.sample .minus)) ∧
    AlikeUnlessTooDeep ((ofTokens signedGroup (1 : Nat)).descend .program)
      ((ofTokens signedGroup (2 : Nat)).descend .program) ∧
    ((ofTokens signedGroup (2 : Nat)).descend .program).1 =
      ((ofTokens signedGroup (5 : Nat)).descend .program).1 := by
  have hread : ((ofTokens signedGroup (2 : Nat)).descend .program).1 = .ok (.program [.expression
      (.unary (Grammar.sample .minus) (.literal (Grammar.sample .number)))]) := by decide +kernel
  have hless : 1 ≤ 2 := by decide
  have hmore : 2 ≤ 5 := by decide
  refine ⟨by decide +kernel, (limit_only_stops_deep_readings signedGroup hless .program).1, ?_⟩
  obtain ⟨t, hdeep⟩ | ⟨hsame, -⟩ :=
    (limit_only_stops_deep_readings signedGroup hmore .program).1
  · rw [hread] at hdeep
    cases hdeep
  · exact hsame

end Reader
end Reckon.Parser
