import Reckon.Program

/-! The grammar of expressions, statements and programs, with the tree that each derivation spells.
A derivation is bounded by the number of groups and signs that stand around any of its tokens. -/
namespace Reckon.Grammar

inductive Phrase where
  | expr | equality | comparison | term | factor | unary | primary
deriving DecidableEq, Repr

inductive Level : Phrase → List Kind → Phrase → Prop
  | equality : Level .equality [.bangEqual, .equalEqual] .comparison
  | comparison : Level .comparison [.greater, .greaterEqual, .less, .lessEqual] .term
  | term : Level .term [.plus, .minus] .factor
  | factor : Level .factor [.star, .slash] .unary

structure Round where
  op : Token
  tokens : List Token
  tree : Expr

def spelled (rounds : List Round) : List Token :=
  rounds.flatMap fun r => r.op :: r.tokens

def folded (first : Expr) (rounds : List Round) : Expr :=
  rounds.foldl (fun left r => .binary left r.op r.tree) first

/-- `Derives m x u e`: the tokens `u` are a phrase `x` with the tree `e`, and at most `m` groups and
signs are open around any of them. -/
inductive Derives : Nat → Phrase → List Token → Expr → Prop
  | expr {m u e} : Derives m .equality u e → Derives m .expr u e
  | level {m x ops y u e} (rounds : List Round) : Level x ops y → Derives m y u e →
      (∀ r ∈ rounds, r.op.kind ∈ ops) → (∀ r ∈ rounds, Derives m y r.tokens r.tree) →
      Derives m x (u ++ spelled rounds) (folded e rounds)
  | signed {m op u e} : op.kind = .plus ∨ op.kind = .minus → Derives m .unary u e →
      Derives (m + 1) .unary (op :: u) (.unary op e)
  | unsigned {m u e} : Derives m .primary u e → Derives m .unary u e
  | number {m t} : t.kind = .number → Derives m .primary [t] (.literal t)
  | group {m opening u closing e} : opening.kind = .leftParen → Derives m .expr u e →
      closing.kind = .rightParen → Derives (m + 1) .primary (opening :: (u ++ [closing])) e

inductive Statement : Nat → List Token → Stmt → Prop
  | print {m keyword u e semicolon} : keyword.kind = .printWord → Derives m .expr u e →
      semicolon.kind = .semicolon →
      Statement m (keyword :: (u ++ [semicolon])) (.print keyword.pos e)
  | expression {m u e semicolon} : Derives m .expr u e → semicolon.kind = .semicolon →
      Statement m (u ++ [semicolon]) (.expression e)

inductive Program : Nat → List Token → List Stmt → Prop
  | nil {m} : Program m [] []
  | cons {m u s v p} : Statement m u s → Program m v p → Program m (u ++ v) (s :: p)

@[simp] theorem spelled_nil : spelled [] = [] := rfl

@[simp] theorem spelled_cons (r : Round) (rounds : List Round) :
    spelled (r :: rounds) = r.op :: (r.tokens ++ spelled rounds) := rfl

@[simp] theorem spelled_append (rounds more : List Round) :
    spelled (rounds ++ more) = spelled rounds ++ spelled more :=
  List.flatMap_append

@[simp] theorem folded_nil (first : Expr) : folded first [] = first := rfl

@[simp] theorem folded_cons (first : Expr) (r : Round) (rounds : List Round) :
    folded first (r :: rounds) = folded (.binary first r.op r.tree) rounds := rfl

@[simp] theorem folded_append (first : Expr) (rounds more : List Round) :
    folded first (rounds ++ more) = folded (folded first rounds) more :=
  List.foldl_append

variable {m n : Nat} {x y : Phrase} {ops : List Kind} {u v : List Token} {e : Expr}

/-- What stands within a bound stands within any larger one. -/
theorem Derives.mono (h : Derives m x u e) (hmn : m ≤ n) : Derives n x u e := by
  induction h generalizing n with
  | expr _ ih => exact .expr (ih hmn)
  | level rounds hl _ hops _ ih ihs => exact .level rounds hl (ih hmn) hops fun r hr => ihs r hr hmn
  | signed hop _ ih =>
    cases n with
    | zero => simp at hmn
    | succ n => exact .signed hop (ih (Nat.le_of_succ_le_succ hmn))
  | unsigned _ ih => exact .unsigned (ih hmn)
  | number ht => exact .number ht
  | group hl _ hr ih =>
    cases n with
    | zero => simp at hmn
    | succ n => exact .group hl (ih (Nat.le_of_succ_le_succ hmn)) hr

def sample (kind : Kind) : Token := ⟨kind, "", Pos.start, none⟩

def starters : List Kind := [.number, .leftParen, .plus, .minus]

theorem Derives.starts (h : Derives m x u e) : ∃ t v, u = t :: v ∧ t.kind ∈ starters := by
  induction h with
  | expr _ ih => exact ih
  | level _ _ _ _ _ ih =>
    obtain ⟨t, v, rfl, ht⟩ := ih
    exact ⟨t, _, rfl, ht⟩
  | @signed _ op u _ hop _ _ =>
    refine ⟨op, u, rfl, ?_⟩
    cases hop with
    | inl h => simp [starters, h]
    | inr h => simp [starters, h]
  | unsigned _ ih => exact ih
  | @number _ t ht => exact ⟨t, [], rfl, by simp [starters, ht]⟩
  | group hl _ _ _ => exact ⟨_, _, rfl, by simp [starters, hl]⟩

def ingredients : List Kind :=
  [.number, .leftParen, .rightParen, .bangEqual, .equalEqual, .greater, .greaterEqual, .less,
    .lessEqual, .plus, .minus, .star, .slash]

theorem Level.ingredients (h : Level x ops y) : ∀ k ∈ ops, k ∈ Grammar.ingredients := by
  cases h <;> decide

theorem Derives.ingredients (h : Derives m x u e) : ∀ t ∈ u, t.kind ∈ Grammar.ingredients := by
  induction h with
  | expr _ ih => exact ih
  | level rounds hl _ hops _ ih ihs =>
    intro t ht
    cases List.mem_append.mp ht with
    | inl ht => exact ih t ht
    | inr ht =>
      obtain ⟨r, hr, ht⟩ := List.mem_flatMap.mp ht
      cases ht with
      | head => exact hl.ingredients _ (hops r hr)
      | tail _ ht => exact ihs r hr t ht
  | signed hop _ ih =>
    intro t ht
    cases ht with
    | head =>
      cases hop with
      | inl hop => simp [hop, Grammar.ingredients]
      | inr hop => simp [hop, Grammar.ingredients]
    | tail _ ht => exact ih t ht
  | unsigned _ ih => exact ih
  | number ht => simp [ht, Grammar.ingredients]
  | group hopening _ hclosing ih =>
    simp only [List.mem_cons, List.mem_append, List.not_mem_nil, or_false]
    rintro t (rfl | ht | rfl)
    · simp [hopening, Grammar.ingredients]
    · exact ih t ht
    · simp [hclosing, Grammar.ingredients]

theorem Derives.primary_starts (h : Derives m .primary u e) :
    ∃ t v, u = t :: v ∧ (t.kind = .number ∨ t.kind = .leftParen) := by
  cases h with
  | number ht => exact ⟨_, _, rfl, .inl ht⟩
  | group hopening _ _ => exact ⟨_, _, rfl, .inr hopening⟩
  | level _ hl => cases hl

theorem Level.unique {ops' : List Kind} {y' : Phrase} (h : Level x ops y) (h' : Level x ops' y') :
    ops = ops' ∧ y = y' := by
  cases h <;> cases h' <;> exact ⟨rfl, rfl⟩

/-- A phrase of a rule with rounds is an operand of the rule and its rounds, and nothing else. -/
theorem Derives.rounds (hl : Level x ops y) (h : Derives m x u e) :
    ∃ v first rounds, Derives m y v first ∧ (∀ r ∈ rounds, r.op.kind ∈ ops) ∧
      (∀ r ∈ rounds, Derives m y r.tokens r.tree) ∧
      u = v ++ spelled rounds ∧ e = folded first rounds := by
  cases h with
  | level rounds hl' hfirst hops hrounds =>
    obtain ⟨rfl, rfl⟩ := hl.unique hl'
    exact ⟨_, _, rounds, hfirst, hops, hrounds, rfl, rfl⟩
  | expr _ => cases hl
  | signed _ _ => cases hl
  | unsigned _ => cases hl
  | number _ => cases hl
  | group _ _ _ => cases hl

/-- One more round can always be added on the right. -/
theorem Derives.snoc {op : Token} {right : Expr} (hl : Level x ops y) (h : Derives m x u e)
    (hop : op.kind ∈ ops) (hright : Derives m y v right) :
    Derives m x (u ++ op :: v) (.binary e op right) := by
  obtain ⟨w, first, rounds, hfirst, hops, hrounds, rfl, rfl⟩ := h.rounds hl
  have hnew := Derives.level (rounds ++ [⟨op, v, right⟩]) hl hfirst
    (by simpa [or_imp, forall_and] using ⟨hops, hop⟩)
    (by simpa [or_imp, forall_and] using ⟨hrounds, hright⟩)
  simpa using hnew

/-- An operand alone is a phrase of the rule. -/
theorem Derives.alone (hl : Level x ops y) (h : Derives m y u e) : Derives m x u e := by
  simpa using Derives.level [] hl h (by simp) (by simp)

theorem derives_expr_iff : Derives m .expr u e ↔ Derives m .equality u e := by
  constructor
  · intro h
    cases h with
    | expr h => exact h
    | level _ hl => cases hl
  · exact .expr

theorem Derives.of_unary (h : Derives m .unary u e) : Derives m .expr u e :=
  .expr (.alone .equality (.alone .comparison (.alone .term (.alone .factor h))))

theorem Statement.mono {s : Stmt} (h : Statement m u s) (hmn : m ≤ n) : Statement n u s := by
  cases h with
  | print hk he hs => exact .print hk (he.mono hmn) hs
  | expression he hs => exact .expression (he.mono hmn) hs

theorem Statement.ne_nil {s : Stmt} (h : Statement m u s) : u ≠ [] := by
  cases h with
  | print => simp
  | expression => simp

theorem Statement.ingredients {s : Stmt} (h : Statement m u s) :
    ∀ t ∈ u, t.kind ∈ .printWord :: .semicolon :: Grammar.ingredients := by
  cases h with
  | print hprint he hkind =>
    simp only [List.mem_cons, List.mem_append, List.not_mem_nil, or_false]
    rintro t (rfl | ht | rfl)
    · exact .inl hprint
    · exact .inr (.inr (he.ingredients t ht))
    · exact .inr (.inl hkind)
  | expression he hkind =>
    simp only [List.mem_cons, List.mem_append, List.not_mem_nil, or_false]
    rintro t (ht | rfl)
    · exact .inr (.inr (he.ingredients t ht))
    · exact .inr (.inl hkind)

theorem Program.ingredients {p : List Stmt} (h : Program m u p) :
    ∀ t ∈ u, t.kind ∈ .printWord :: .semicolon :: Grammar.ingredients := by
  induction h with
  | nil => simp
  | cons hs _ ih =>
    intro t ht
    cases List.mem_append.mp ht with
    | inl ht => exact hs.ingredients t ht
    | inr ht => exact ih t ht

theorem Derives.kind_ne {k : Kind} (h : Derives m x u e) (hk : k ∉ Grammar.ingredients) :
    ∀ t ∈ u, t.kind ≠ k := by
  rintro t ht rfl
  exact hk (h.ingredients t ht)

theorem Program.kind_ne {k : Kind} {p : List Stmt} (h : Program m u p)
    (hk : k ∉ .printWord :: .semicolon :: Grammar.ingredients) : ∀ t ∈ u, t.kind ≠ k := by
  rintro t ht rfl
  exact hk (h.ingredients t ht)

/-- No phrase holds an unknown token. -/
theorem Derives.known (h : Derives m x u e) : ∀ t ∈ u, t.kind ≠ .unknown :=
  h.kind_ne (by decide)

theorem Program.known {p : List Stmt} (h : Program m u p) : ∀ t ∈ u, t.kind ≠ .unknown :=
  h.kind_ne (by decide)

theorem Statement.semicolon_mem {s : Stmt} (h : Statement m u s) :
    ∃ t ∈ u, t.kind = .semicolon := by
  cases h with
  | print _ _ hkind => exact ⟨_, by simp, hkind⟩
  | expression _ hkind => exact ⟨_, by simp, hkind⟩

/-- No expression is a program too: a program is empty or holds a semicolon. -/
theorem Derives.not_program {n : Nat} {p : List Stmt} (h : Derives m .expr u e) :
    ¬ Program n u p := by
  intro hprogram
  cases hprogram with
  | nil =>
    obtain ⟨t, v, heq, -⟩ := h.starts
    cases heq
  | cons hs _ =>
    obtain ⟨t, ht, hkind⟩ := hs.semicolon_mem
    exact h.kind_ne (by decide) t (List.mem_append_left _ ht) hkind

theorem Program.mono {p : List Stmt} (h : Program m u p) (hmn : m ≤ n) : Program n u p := by
  induction h with
  | nil => exact .nil
  | cons hs _ ih => exact .cons (hs.mono hmn) ih

end Reckon.Grammar
