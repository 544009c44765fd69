import Reckon.Proofs.Grammar.Fallback

/-! Reading with a place and a count instead of lists. A descent looks at one token at a time and steps
over it; it counts each group and sign while it reads inside, and takes the count back however the
inside ends. From every place that a reader can reach it does the same as the readings of lists. -/
namespace Reckon.Parser
variable {α β : Type}

/-- Reading that changes a reader as it goes. After a fault the reader stays where it was left. -/
abbrev Descent := ExceptT Fault (StateM Reader)

namespace Descent

def peek : Descent Token := do
  let r ← get
  return r.tokens[r.position]?.getD (Token.eofAt ((r.tokens.getLast?.map Token.pos).getD ⟨0, 0⟩))

def atEnd : Descent Bool := do
  return (← peek).kind = .eof

def sees (kinds : List Kind) : Descent Bool := do
  return !(← atEnd) && decide ((← peek).kind ∈ kinds)

def pull : Descent Token := do
  let t ← peek
  unless ← atEnd do
    modify fun r => { r with position := r.position + 1 }
  return t

def eat (kind : Kind) : Descent Bool := do
  if ← sees [kind] then
    let _ ← pull
    return true
  else return false

def consume (kind : Kind) (complaint : Complaint) : Descent Token := do
  let t ← peek
  if ← eat kind then return t else throw (Fault.reject complaint t)

def nest (t : Token) (inside : Descent α) : Descent α := do
  let r ← get
  if r.limit ≤ r.depth then throw (.grammar .nesting t)
  else
    set { r with depth := r.depth + 1 }
    -- The count is taken back after a fault too.
    try inside finally modify fun r => { r with depth := r.depth - 1 }

-- Each round steps over a token, so the number of tokens is fuel enough.
def fold (ops : List Kind) (operand : Descent Expr) : (fuel : Nat) → (left : Expr) → Descent Expr
  | 0, left => return left
  | fuel + 1, left => do
    if ← sees ops then
      let op ← pull
      let right ← operand
      fold ops operand fuel (.binary left op right)
    else return left

def tier (ops : List Kind) (operand : Descent Expr) : Descent Expr := do
  let left ← operand
  fold ops operand (← get).rest.length left

def tiered (operand : Descent Expr) : List (List Kind) → Descent Expr
  | [] => operand
  | ops :: tighter => tier ops (tiered operand tighter)

def primary (inner : Descent Expr) : Descent Expr := do
  if ← sees [.number] then return .literal (← pull)
  else if ← sees [.leftParen] then
    let opening ← pull
    let e ← nest opening (tiered inner tiers)
    let _ ← consume .rightParen .closing
    return e
  else throw (Fault.reject .operand (← peek))

def unary (inner : Descent Expr) : Descent Expr := do
  if ← sees Kind.signs then
    let op ← pull
    let right ← nest op inner
    return .unary op right
  else primary inner

/-- Reads an operand, going inwards at most `reach` times. The limit ends the way inwards earlier, if
there is room for less. -/
def operand : (reach : Nat) → Descent Expr
  | 0 => do throw (.grammar .nesting (← peek))
  | reach + 1 => unary (operand reach)

def operation (loosest : Nat) : Descent Expr := do
  tiered (operand ((← get).room + 1)) (tiers.drop loosest)

def alone : Descent Expr := do
  primary (operand (← get).room)

def statement : Descent Stmt := do
  if ← sees [.printWord] then
    let keyword ← pull
    let e ← operation 0
    let _ ← consume .semicolon .afterValue
    return .print keyword.pos e
  else
    let e ← operation 0
    let _ ← consume .semicolon .afterExpression
    return .expression e

def statements : (fuel : Nat) → Descent (List Stmt)
  | 0 => return []
  | fuel + 1 => do
    if ← atEnd then return []
    else
      let s ← statement
      let more ← statements fuel
      return s :: more

def program : Descent (List Stmt) := do
  statements (← get).rest.length

def lone : Descent Expr := do
  let e ← operation 0
  if ← atEnd then return e else throw (Fault.reject .trailing (← peek))

def runFrom (r : Reader) (d : Descent α) : Except Fault α × Reader :=
  d.run.run r

theorem runFrom_bind (r : Reader) (d : Descent α) (next : α → Descent β) :
    (d >>= next).runFrom r =
      match d.runFrom r with
      | (.ok a, r) => (next a).runFrom r
      | (.error f, r) => (.error f, r) := by
  rw [runFrom, ExceptT.run_bind, StateT.run_bind, runFrom]
  rcases d.run.run r with ⟨ending, r⟩
  cases ending <;> rfl

theorem runFrom_get (r : Reader) (next : Reader → Descent β) :
    (get >>= next).runFrom r = (next r).runFrom r :=
  rfl

theorem runFrom_finally (r : Reader) (d : Descent α) (change : Reader → Reader) :
    (tryFinally d (modify change) : Descent α).runFrom r =
      ((d.runFrom r).1, change (d.runFrom r).2) := by
  obtain ⟨ending, s, hrun⟩ : ∃ ending s, d r = (ending, s) := ⟨_, _, rfl⟩
  have hfrom : d.runFrom r = (ending, s) := hrun
  rw [hfrom]
  simp only [runFrom, ExceptT.run, StateT.run, tryFinally, MonadFinally.tryFinally', Functor.map,
    ExceptT.map, ExceptT.mk, bind, StateT.bind, hrun]
  cases ending <;> rfl

theorem runFrom_nest (r : Reader) (t : Token) (inside : Descent α) :
    (nest t inside).runFrom r =
      if r.limit ≤ r.depth then (.error (.grammar .nesting t), r)
      else
        let after := inside.runFrom { r with depth := r.depth + 1 }
        (after.1, { after.2 with depth := after.2.depth - 1 }) := by
  rw [nest, runFrom_get]
  split
  · rfl
  · exact runFrom_finally { r with depth := r.depth + 1 } inside _

end Descent

section Place
variable {tokens ts : List Token} {room : Nat} {r : Reader} {t : Token} {kinds : List Kind}

structure Reader.Sound (r : Reader) : Prop where
  inside : r.position ≤ r.tokens.length
  before : ∀ t ∈ r.tokens.take r.position, t.kind ≠ .eof

theorem getElem?_body (tokens : List Token) :
    tokens[(body tokens).length]? = tokens.find? (·.kind == .eof) := by
  induction tokens with
  | nil => rfl
  | cons t tokens ih =>
    by_cases ht : t.kind = .eof
    · simp [body, ht]
    · have htail := ih
      simp only [body] at htail
      simp [body, ht, htail]

theorem exists_after_body (tokens : List Token) : ∃ after, body tokens ++ after = tokens :=
  List.takeWhile_prefix _

theorem Reader.sound_iff : r.Sound ↔ r.position ≤ (body r.tokens).length := by
  constructor
  · intro h
    by_contra hbeyond
    have hshort : (body r.tokens).length < r.tokens.length := by
      have hinside := h.inside
      omega
    have hfind := (getElem?_body r.tokens).symm.trans (List.getElem?_eq_getElem hshort)
    have heof := List.find?_some hfind
    refine h.before _ (List.mem_take_iff_getElem.mpr ⟨_, ?_, rfl⟩) (by simpa using heof)
    omega
  · intro h
    obtain ⟨after, hafter⟩ := exists_after_body r.tokens
    have hlength : (body r.tokens).length ≤ r.tokens.length := (List.takeWhile_sublist _).length_le
    refine ⟨Nat.le_trans h hlength, fun t ht => body_ne_eof r.tokens t ?_⟩
    rw [← hafter, List.take_append_of_le_length h] at ht
    exact List.mem_of_mem_take ht

theorem Reader.Sound.atRest (r : Reader) (ts : List Token) : (r.atRest ts).Sound :=
  sound_iff.mpr (Nat.sub_le _ _)

theorem Reader.rest_suffix (r : Reader) : r.rest <:+ body r.tokens := List.drop_suffix _ _

theorem Reader.rest_atRest (h : ts <:+ r.rest) : (r.atRest ts).rest = ts :=
  (List.suffix_iff_eq_drop.mp (h.trans r.rest_suffix)).symm

theorem Reader.Sound.atRest_rest (h : r.Sound) : r.atRest r.rest = r := by
  have hplace := sound_iff.mp h
  have hposition : (body r.tokens).length - r.rest.length = r.position := by
    rw [rest, List.length_drop]
    omega
  rw [Reader.atRest, hposition]

/-- One token is stepped over. -/
theorem Reader.atRest_tail (hrest : r.rest = t :: ts) :
    r.atRest ts = { r with position := r.position + 1 } := by
  have hlength := congrArg List.length hrest
  rw [rest, List.length_drop, List.length_cons] at hlength
  have hposition : (body r.tokens).length - ts.length = r.position + 1 := by omega
  rw [Reader.atRest, hposition]

/-- What is met at a sound place is the first token of those left, or the one that ends the list. -/
theorem Reader.Sound.peek_eq (h : r.Sound) :
    r.tokens[r.position]?.getD (Token.eofAt ((r.tokens.getLast?.map Token.pos).getD ⟨0, 0⟩)) =
      r.peek := by
  rw [Reader.peek, Reader.rest, List.headD_eq_head?_getD, List.head?_drop]
  obtain hplace | hplace := Nat.lt_or_eq_of_le (sound_iff.mp h)
  · obtain ⟨after, hafter⟩ := exists_after_body r.tokens
    have hmet : (body r.tokens ++ after)[r.position]? = (body r.tokens)[r.position]? :=
      List.getElem?_append_left hplace
    rw [hafter] at hmet
    rw [hmet, List.getElem?_eq_getElem hplace]
    rfl
  · rw [hplace, getElem?_body, List.getElem?_eq_none (Nat.le_refl _), stop]
    cases r.tokens.find? (·.kind == .eof) <;> rfl

structure Reader.Ready (tokens : List Token) (room : Nat) (r : Reader) : Prop where
  tokens_eq : r.tokens = tokens
  room_eq : r.room = room
  sound : r.Sound

theorem Reader.Ready.atRest (h : r.Ready tokens room) (ts : List Token) :
    (r.atRest ts).Ready tokens room :=
  ⟨h.tokens_eq, h.room_eq, .atRest r ts⟩

theorem sees_of_ends (h : Ends kinds r.rest) : r.sees kinds = false := by
  rw [Reader.sees]
  cases hrest : r.rest with
  | nil => rfl
  | cons t ts =>
    rw [hrest] at h
    simpa using ends_cons.mp h

theorem sees_cons (hrest : r.rest = t :: ts) (ht : t.kind ∈ kinds) : r.sees kinds = true := by
  simp [Reader.sees, hrest, ht]

end Place

namespace Descent
variable {tokens ts : List Token} {room : Nat} {r : Reader} {t : Token} {kinds : List Kind}

section Tokens

theorem runFrom_peek (h : r.Sound) : peek.runFrom r = (.ok r.peek, r) := by
  rw [← h.peek_eq]
  rfl

theorem runFrom_atEnd (h : r.Sound) : atEnd.runFrom r = (.ok r.atEnd, r) := by
  have hend : decide (r.peek.kind = .eof) = r.atEnd := by
    rw [Reader.peek, Reader.atEnd]
    cases hrest : r.rest with
    | nil => simp [stop_kind]
    | cons t ts =>
      have hmem : t ∈ body r.tokens := r.rest_suffix.subset (by simp [hrest])
      simpa using body_ne_eof r.tokens t hmem
  rw [atEnd, runFrom_bind, runFrom_peek h, ← hend]
  rfl

theorem runFrom_sees (h : r.Sound) (kinds : List Kind) :
    (sees kinds).runFrom r = (.ok (r.sees kinds), r) := by
  have hsees : (!r.atEnd && decide (r.peek.kind ∈ kinds)) = r.sees kinds := by
    rw [Reader.atEnd, Reader.peek, Reader.sees]
    cases r.rest <;> simp
  rw [sees, runFrom_bind, runFrom_atEnd h, ← hsees]
  simp only [runFrom_bind, runFrom_peek h]
  rfl

theorem runFrom_pull (h : r.Sound) : pull.runFrom r = (.ok r.pull.1, r.pull.2) := by
  have hstep : r.pull.2 = if r.atEnd then r else { r with position := r.position + 1 } := by
    rw [Reader.pull, Reader.atEnd]
    cases hrest : r.rest with
    | nil => simpa [hrest] using h.atRest_rest
    | cons t ts => simpa using Reader.atRest_tail hrest
  rw [pull, runFrom_bind, runFrom_peek h]
  simp only [runFrom_bind, runFrom_atEnd h, hstep]
  cases r.atEnd <;> rfl

/-- What happens if the token at hand is of none of the kinds. -/
theorem runFrom_skip (h : r.Sound) (hends : Ends kinds r.rest) (yes no : Descent α) :
    (sees kinds >>= fun b => if b then yes else no).runFrom r = no.runFrom r := by
  rw [runFrom_bind, runFrom_sees h, sees_of_ends hends]
  rfl

/-- What happens if the token at hand is of one of the kinds, and is stepped over. -/
theorem runFrom_step (h : r.Sound) (hrest : r.rest = t :: ts) (ht : t.kind ∈ kinds)
    (yes : Token → Descent α) (no : Descent α) :
    (sees kinds >>= fun b => if b then pull >>= yes else no).runFrom r =
      (yes t).runFrom (r.atRest ts) := by
  rw [runFrom_bind, runFrom_sees h, sees_cons hrest ht]
  simp only [if_true, runFrom_bind, runFrom_pull h, Reader.pull, Reader.peek, hrest]
  rfl

end Tokens

/-- The descent does from `r` what the reading does with the tokens at hand, and leaves some last ones of
these. The count of what is open is as before. -/
structure FollowsAt (r : Reader) (d : Descent α) (reading : Reading α) : Prop where
  runFrom_eq : d.runFrom r = r.run reading
  suffix : (reading r.rest).rest <:+ r.rest

def Follows (tokens : List Token) (room : Nat) (d : Descent α) (reading : Reading α) : Prop :=
  ∀ r : Reader, r.Ready tokens room → FollowsAt r d reading

section Follows
variable {d : Descent α} {reading inner : Reading α} {yes : Token → Descent α} {no : Descent α}

theorem FollowsAt.congr (h : FollowsAt r d inner) (heq : reading r.rest = inner r.rest) :
    FollowsAt r d reading := by
  refine ⟨?_, heq ▸ h.suffix⟩
  rw [h.runFrom_eq, Reader.run, Reader.run, heq]

theorem FollowsAt.skip (h : r.Ready tokens room) (hends : Ends kinds r.rest)
    (hno : FollowsAt r no reading) :
    FollowsAt r (sees kinds >>= fun b => if b then pull >>= yes else no) reading :=
  ⟨(runFrom_skip h.sound hends _ _).trans hno.runFrom_eq, hno.suffix⟩

theorem FollowsAt.step (h : r.Ready tokens room) (hrest : r.rest = t :: ts) (ht : t.kind ∈ kinds)
    (hyes : Follows tokens room (yes t) inner) (heq : reading (t :: ts) = inner ts) :
    FollowsAt r (sees kinds >>= fun b => if b then pull >>= yes else no) reading := by
  have hinner := hyes _ (h.atRest ts)
  have hts : (r.atRest ts).rest = ts := Reader.rest_atRest (by simp [hrest])
  constructor
  · rw [runFrom_step h.sound hrest ht, hinner.runFrom_eq, Reader.run, Reader.run, hts, hrest, heq]
    rfl
  · have hsuffix := hinner.suffix
    rw [hts] at hsuffix
    rw [hrest, heq]
    exact hsuffix.trans (List.suffix_cons t ts)

theorem FollowsAt.fromPlace {next : Reader → Descent α} (h : FollowsAt r (next r) reading) :
    FollowsAt r (get >>= next) reading :=
  ⟨(runFrom_get r next).trans h.runFrom_eq, h.suffix⟩

theorem FollowsAt.atEnd {ending more : Descent α} (hr : r.Ready tokens room)
    (h : FollowsAt r (if r.atEnd then ending else more) reading) :
    FollowsAt r (Descent.atEnd >>= fun b => if b then ending else more) reading := by
  refine ⟨?_, h.suffix⟩
  rw [runFrom_bind, runFrom_atEnd hr.sound]
  exact h.runFrom_eq

theorem Follows.pure (a : α) : Follows tokens room (pure a) (.done a) := by
  intro r h
  refine ⟨?_, List.suffix_refl _⟩
  change (Except.ok a, r) = (Except.ok a, r.atRest r.rest)
  rw [h.sound.atRest_rest]

theorem Follows.bind {next : α → Descent β} {after : α → Reading β} (h : Follows tokens room d reading)
    (hnext : ∀ a, Follows tokens room (next a) (after a)) :
    Follows tokens room (d >>= next) (fun ts => (reading ts).bind after) := by
  intro r hr
  obtain ⟨hrun, hsuffix⟩ := h r hr
  cases hout : reading r.rest with
  | stuck f rest =>
    rw [hout] at hsuffix
    constructor
    · rw [runFrom_bind, hrun, Reader.run, Reader.run, hout]
      rfl
    · rw [hout]
      exact hsuffix
  | done a rest =>
    rw [hout] at hsuffix
    have hrest : (r.atRest rest).rest = rest := Reader.rest_atRest hsuffix
    have hmore := hnext a _ (hr.atRest rest)
    have hleft := hmore.suffix
    rw [hrest] at hleft
    constructor
    · rw [runFrom_bind, hrun, Reader.run, Reader.run, hout]
      change (next a).runFrom (r.atRest rest) = _
      rw [hmore.runFrom_eq, Reader.run, hrest]
      rfl
    · rw [hout]
      exact hleft.trans hsuffix

theorem Follows.map {f : α → β} (h : Follows tokens room d reading) :
    Follows tokens room (d >>= fun a => Pure.pure (f a)) (fun ts => (reading ts).map f) := by
  intro r hr
  refine (h.bind (fun a => Follows.pure (f a)) r hr).congr ?_
  cases reading r.rest <;> rfl

theorem runFrom_eat (h : r.Sound) (kind : Kind) :
    (eat kind).runFrom r = (.ok (r.eat kind).1, (r.eat kind).2) := by
  rw [eat, runFrom_bind, runFrom_sees h, Reader.eat]
  cases r.sees [kind] with
  | false => rfl
  | true =>
    simp only [if_true, runFrom_bind, runFrom_pull h]
    rfl

theorem consume_follows (tokens : List Token) (room : Nat) (kind : Kind) (complaint : Complaint) :
    Follows tokens room (consume kind complaint) (expect (stop tokens) kind complaint) := by
  intro r hr
  have hrun : (consume kind complaint).runFrom r =
      if (r.eat kind).1 then (.ok r.peek, (r.eat kind).2)
      else (.error (Fault.reject complaint r.peek), (r.eat kind).2) := by
    rw [consume, runFrom_bind, runFrom_peek hr.sound]
    simp only [runFrom_bind, runFrom_eat hr.sound]
    cases (r.eat kind).1 <;> rfl
  rw [Reader.eat] at hrun
  by_cases hends : Ends [kind] r.rest
  · have hexpect : expect (stop tokens) kind complaint r.rest = _ := expect_of_ends hends
    rw [sees_of_ends hends] at hrun
    refine ⟨?_, by rw [hexpect]; exact List.suffix_refl _⟩
    rw [hrun, Reader.run, hexpect]
    change _ = (_, r.atRest r.rest)
    rw [hr.sound.atRest_rest, Reader.peek, hr.tokens_eq]
    rfl
  · obtain ⟨t, ts, hrest, ht⟩ := exists_cons_of_not_ends hends
    have hexpect : expect (stop tokens) kind complaint r.rest = .done t ts :=
      expect_eq_done.mpr ⟨hrest, List.mem_singleton.mp ht⟩
    rw [sees_cons hrest ht] at hrun
    refine ⟨?_, by rw [hexpect, hrest]; exact List.suffix_cons t ts⟩
    rw [hrun, Reader.run, hexpect, Reader.pull, Reader.peek, hrest]
    rfl

/-- The complaint is about the token at hand, which is not taken. -/
theorem reject_followsAt {complaint : Complaint} (hr : r.Ready tokens room)
    (hstuck : reading r.rest =
      .stuck (Fault.reject complaint (r.rest.headD (stop tokens))) r.rest) :
    FollowsAt r (peek >>= fun t => throw (Fault.reject complaint t)) reading := by
  refine ⟨?_, by rw [hstuck]; exact List.suffix_refl _⟩
  rw [runFrom_bind, runFrom_peek hr.sound, Reader.run, hstuck, Reader.peek, hr.tokens_eq]
  change _ = (_, r.atRest r.rest)
  rw [hr.sound.atRest_rest]
  rfl

theorem nest_full (tokens : List Token) (t : Token) (inside : Descent α) :
    Follows tokens 0 (nest t inside) (.stuck (.grammar .nesting t)) := by
  intro r hr
  have hfull : r.limit ≤ r.depth := by
    have hroom := hr.room_eq
    rw [Reader.room] at hroom
    omega
  refine ⟨?_, List.suffix_refl _⟩
  rw [runFrom_nest, if_pos hfull, Reader.run]
  change _ = (_, r.atRest r.rest)
  rw [hr.sound.atRest_rest]
  rfl

/-- One level further in there is one room less. On the way back the count is what it was. -/
theorem nest_follows (h : Follows tokens room d reading) (t : Token) :
    Follows tokens (room + 1) (nest t d) reading := by
  intro r hr
  have hroom := hr.room_eq
  rw [Reader.room] at hroom
  have hfree : ¬ r.limit ≤ r.depth := by omega
  have hinside : Reader.Ready tokens room { r with depth := r.depth + 1 } := by
    refine ⟨hr.tokens_eq, ?_, ⟨hr.sound.inside, hr.sound.before⟩⟩
    simp only [Reader.room]
    omega
  obtain ⟨hrun, hsuffix⟩ := h _ hinside
  refine ⟨?_, hsuffix⟩
  rw [runFrom_nest, if_neg hfree, hrun]
  rfl

end Follows

section Expression
variable {d inner : Descent Expr} {reading : Reading Expr} {reach : Nat}

theorem fold_follows (h : Follows tokens room d reading) (ops : List Kind) (fuel : Nat) (left : Expr) :
    Follows tokens room (fold ops d fuel left) (foldTier ops reading fuel left) := by
  induction fuel generalizing left with
  | zero => exact Follows.pure left
  | succ fuel ih =>
    intro r hr
    by_cases hends : Ends ops r.rest
    · refine .skip hr hends ?_
      exact (Follows.pure left r hr).congr (foldTier_of_ends hends)
    · obtain ⟨t, ts, hrest, ht⟩ := exists_cons_of_not_ends hends
      refine .step hr hrest ht (h.bind fun right => ih (.binary left t right)) ?_
      simp [foldTier, ht]

theorem tier_follows (h : Follows tokens room d reading) (ops : List Kind) :
    Follows tokens room (tier ops d) (Parser.tier ops reading) := by
  refine h.bind fun left r hr => .fromPlace ?_
  exact (fold_follows h ops r.rest.length left r hr).congr rfl

theorem tiered_follows (h : Follows tokens room d reading) (tiers : List (List Kind)) :
    Follows tokens room (tiered d tiers) (Parser.tiered reading tiers) := by
  induction tiers with
  | nil => exact h
  | cons ops tiers ih => exact tier_follows ih ops

def Inwards (tokens : List Token) (room : Nat) (inner : Descent Expr) : Prop :=
  ∀ n, room = n + 1 → Follows tokens n inner (Parser.operand (stop tokens) n)

theorem group_follows (h : Inwards tokens room inner) (ht : t.kind = .leftParen) :
    ∃ reading, Follows tokens room
      (nest t (tiered inner tiers) >>= fun e => consume .rightParen .closing >>= fun _ => Pure.pure e)
        reading ∧
      ∀ ts, Parser.primary (stop tokens) (nested (stop tokens) room) (t :: ts) = reading ts := by
  have hclosed : ∀ e : Expr, Follows tokens room
      (consume .rightParen .closing >>= fun _ => Pure.pure e)
      (fun ts => (expect (stop tokens) .rightParen .closing ts).map fun _ => e) :=
    fun e => (consume_follows tokens room _ _).map
  cases room with
  | zero =>
    refine ⟨_, (nest_full tokens t _).bind hclosed, fun ts => ?_⟩
    simp [Parser.primary, nested, ht, Outcome.bind]
  | succ n => exact ⟨_, (nest_follows (tiered_follows (h n rfl) tiers) t).bind hclosed, primary_paren ht⟩

theorem primary_follows (h : Inwards tokens room inner) :
    Follows tokens room (primary inner)
      (Parser.primary (stop tokens) (nested (stop tokens) room)) := by
  intro r hr
  by_cases hnumber : Ends [.number] r.rest
  · refine .skip hr hnumber ?_
    by_cases hparen : Ends [.leftParen] r.rest
    · refine .skip hr hparen (reject_followsAt hr ?_)
      exact primary_of_ends (ends_append.mpr ⟨hnumber, hparen⟩)
    · obtain ⟨t, ts, hrest, ht⟩ := exists_cons_of_not_ends hparen
      obtain ⟨reading, hgroup, heq⟩ := group_follows h (List.mem_singleton.mp ht)
      exact .step hr hrest ht hgroup (heq ts)
  · obtain ⟨t, ts, hrest, ht⟩ := exists_cons_of_not_ends hnumber
    refine .step hr hrest ht (Follows.pure (Expr.literal t)) ?_
    simp [Parser.primary, List.mem_singleton.mp ht]

theorem unary_follows (h : Inwards tokens room inner) :
    Follows tokens room (unary inner)
      (Parser.signed (stop tokens) (nested (stop tokens) room)) := by
  intro r hr
  by_cases hends : Ends Kind.signs r.rest
  · exact .skip hr hends ((primary_follows h r hr).congr (signed_of_ends hends))
  · obtain ⟨t, ts, hrest, ht⟩ := exists_cons_of_not_ends hends
    cases room with
    | zero =>
      refine .step hr hrest ht (nest_full tokens t inner).map ?_
      simp [signed, nested, ht, Outcome.map]
    | succ n => exact .step hr hrest ht (nest_follows (h n rfl) t).map (signed_cons ht ts)

/-- Levels beyond the room are never reached. -/
theorem operand_follows (h : room < reach) :
    Follows tokens room (operand reach) (Parser.operand (stop tokens) room) := by
  induction reach generalizing room with
  | zero => exact absurd h (Nat.not_lt_zero _)
  | succ reach ih =>
    rw [operand_eq_signed]
    refine unary_follows fun n hn => ih ?_
    omega

theorem operation_follows (tokens : List Token) (room loosest : Nat) :
    Follows tokens room (operation loosest)
      (Parser.tiered (Parser.operand (stop tokens) room) (tiers.drop loosest)) := by
  intro r hr
  obtain rfl := hr.room_eq
  exact .fromPlace (tiered_follows (operand_follows (Nat.lt_succ_self _)) _ r hr)

theorem alone_follows (tokens : List Token) (room : Nat) :
    Follows tokens room alone (Parser.primary (stop tokens) (nested (stop tokens) room)) := by
  intro r hr
  obtain rfl := hr.room_eq
  refine .fromPlace (primary_follows (fun n hn => operand_follows ?_) r hr)
  omega

end Expression

section Program

/-- What is made of an expression once its semicolon is taken. -/
theorem ended_follows (tokens : List Token) (room : Nat) (complaint : Complaint) (f : Expr → β) :
    Follows tokens room
      (operation 0 >>= fun e => consume .semicolon complaint >>= fun _ => Pure.pure (f e))
      (fun ts => (ended (stop tokens) room complaint ts).map f) := by
  have hexpression := operation_follows tokens room 0
  intro r hr
  refine (hexpression.bind (fun e => (consume_follows tokens room _ _).map) r hr).congr ?_
  change Outcome.map f (Outcome.bind (expression (stop tokens) room r.rest) _) =
    Outcome.bind (expression (stop tokens) room r.rest) _
  cases expression (stop tokens) room r.rest with
  | stuck g rest => rfl
  | done e rest =>
    simp only [Outcome.bind]
    cases expect (stop tokens) .semicolon complaint rest <;> rfl

theorem statement_follows (tokens : List Token) (room : Nat) :
    Follows tokens room statement (Parser.statement (stop tokens) room) := by
  intro r hr
  by_cases hends : Ends [.printWord] r.rest
  · refine .skip hr hends ?_
    exact (ended_follows tokens room .afterExpression Stmt.expression r hr).congr
      (statement_of_ends hends)
  · obtain ⟨t, ts, hrest, ht⟩ := exists_cons_of_not_ends hends
    exact .step hr hrest ht (ended_follows tokens room .afterValue (Stmt.print t.pos))
      (statement_print (List.mem_singleton.mp ht) ts)

theorem statements_follows (tokens : List Token) (room fuel : Nat) :
    Follows tokens room (statements fuel) (Parser.statements (stop tokens) room fuel) := by
  induction fuel with
  | zero =>
    intro r hr
    refine (Follows.pure [] r hr).congr ?_
    cases r.rest <;> rfl
  | succ fuel ih =>
    intro r hr
    refine .atEnd hr ?_
    cases hrest : r.rest with
    | nil =>
      have hend : r.atEnd = true := by simp [Reader.atEnd, hrest]
      rw [hend]
      exact (Follows.pure [] r hr).congr (by rw [hrest]; rfl)
    | cons t ts =>
      have hmore : r.atEnd = false := by simp [Reader.atEnd, hrest]
      rw [hmore]
      have hrun := (statement_follows tokens room).bind fun s => ih.map (f := (s :: ·))
      exact (hrun r hr).congr (by rw [hrest]; rfl)

theorem program_follows (tokens : List Token) (room : Nat) :
    Follows tokens room program (Parser.program (stop tokens) room) := by
  intro r hr
  have hstatements := statements_follows tokens room r.rest.length r hr
  exact .fromPlace (hstatements.congr rfl)

theorem lone_follows (tokens : List Token) (room : Nat) :
    Follows tokens room lone (Parser.lone (stop tokens) room) := by
  refine (operation_follows tokens room 0).bind fun e r hr => .atEnd hr ?_
  cases hrest : r.rest with
  | nil =>
    have hend : r.atEnd = true := by simp [Reader.atEnd, hrest]
    rw [hend]
    exact (Follows.pure e r hr).congr (by rw [hrest])
  | cons t ts =>
    have hmore : r.atEnd = false := by simp [Reader.atEnd, hrest]
    rw [hmore]
    exact reject_followsAt hr (by rw [hrest]; rfl)

end Program

end Descent
end Reckon.Parser
