import Reckon.Proofs.Grammar.Recognition

/-! Paths from the root of a tree to its leaves. The bound on groups and signs bounds the steps of a path
past signs and into right operands: a group leaves no node behind, but it takes one off the bound for
the four right steps that its tiers allow. Steps into left operands are not bounded. -/
namespace Reckon

inductive Step where
  | left | right | sign
deriving DecidableEq, Repr

inductive Expr.Path : Expr → List Step → Prop
  | literal {token} : Path (.literal token) []
  | unary {op right path} : Path right path → Path (.unary op right) (.sign :: path)
  | left {left op right path} : Path left path → Path (.binary left op right) (.left :: path)
  | right {left op right path} : Path right path → Path (.binary left op right) (.right :: path)

def Step.weight (path : List Step) : Nat := path.count .right + 4 * path.count .sign

namespace Step
variable {path : List Step}

@[simp] theorem weight_nil : weight [] = 0 := rfl

@[simp] theorem weight_left (path : List Step) : weight (.left :: path) = weight path := by
  simp [weight]

@[simp] theorem weight_right (path : List Step) : weight (.right :: path) = weight path + 1 := by
  simp [weight]
  omega

@[simp] theorem weight_sign (path : List Step) : weight (.sign :: path) = weight path + 4 := by
  simp [weight]
  omega

/-- Left steps apart, a path is no longer than its weight. -/
theorem length_le (path : List Step) : path.length ≤ path.count .left + weight path := by
  induction path with
  | nil => simp
  | cons s path ih => cases s <;> simp <;> omega

end Step

namespace Grammar
variable {m : Nat} {x y : Phrase} {ops : List Kind} {u : List Token} {e : Expr} {s : Stmt}
  {p : List Stmt} {path : List Step}

def Phrase.tiers : Phrase → Nat
  | expr => 4
  | equality => 4
  | comparison => 3
  | term => 2
  | factor => 1
  | unary => 0
  | primary => 0

theorem Level.tiers_eq (h : Level x ops y) : x.tiers = y.tiers + 1 := by
  cases h <;> rfl

/-- A path through a fold goes left as far as it likes, and then into the first operand or right into that
of one round. -/
theorem path_folded {first : Expr} {rounds : List Round} (h : (folded first rounds).Path path) :
    ∃ k, (∃ inner, path = List.replicate k .left ++ inner ∧ first.Path inner) ∨
      ∃ r ∈ rounds, ∃ inner, path = List.replicate k .left ++ .right :: inner ∧ r.tree.Path inner := by
  induction rounds generalizing first with
  | nil => exact ⟨0, .inl ⟨path, rfl, h⟩⟩
  | cons r rounds ih =>
    obtain ⟨k, ⟨inner, rfl, hfirst⟩ | ⟨r', hr', inner, rfl, hround⟩⟩ := ih h
    · cases hfirst with
      | @left _ _ _ inner hinner =>
        refine ⟨k + 1, .inl ⟨inner, ?_, hinner⟩⟩
        rw [List.replicate_succ', List.append_assoc]
        rfl
      | @right _ _ _ inner hinner => exact ⟨k, .inr ⟨r, by simp, inner, rfl, hinner⟩⟩
    · exact ⟨k, .inr ⟨r', List.mem_cons_of_mem r hr', inner, rfl, hround⟩⟩

/-- Each round of a fold adds a left step. -/
theorem path_lefts {first : Expr} (rounds : List Round) (h : first.Path path) :
    (folded first rounds).Path (List.replicate rounds.length .left ++ path) := by
  induction rounds generalizing first path with
  | nil => exact h
  | cons r rounds ih =>
    have hnext : (Expr.binary first r.op r.tree).Path (.left :: path) := .left h
    have hmore := ih hnext
    rwa [List.append_cons, ← List.replicate_succ'] at hmore

/-- The path has at most `m` signs, and at most `tiers` right steps besides those that these and the
groups allow. -/
structure Slim (m tiers : Nat) (path : List Step) : Prop where
  signs : path.count .sign ≤ m
  weight : Step.weight path ≤ tiers + 4 * m

theorem Slim.afterLefts {tiers : Nat} (h : Slim m tiers path) (k : Nat) :
    Slim m tiers (List.replicate k .left ++ path) := by
  induction k with
  | zero => exact h
  | succ k ih =>
    obtain ⟨hsigns, hweight⟩ := ih
    constructor
    · simpa [List.replicate_succ] using hsigns
    · simpa [List.replicate_succ] using hweight

theorem Derives.slim (h : Derives m x u e) (hpath : e.Path path) : Slim m x.tiers path := by
  induction h generalizing path with
  | expr _ ih => exact ih hpath
  | level rounds hl _ _ _ ih ihs =>
    have htiers := hl.tiers_eq
    obtain ⟨k, ⟨inner, rfl, hfirst⟩ | ⟨r, hr, inner, rfl, hround⟩⟩ := path_folded hpath
    · obtain ⟨hsigns, hweight⟩ := ih hfirst
      exact Slim.afterLefts ⟨hsigns, by omega⟩ k
    · -- the right step is the one that this tier adds
      obtain ⟨hsigns, hweight⟩ := ihs r hr hround
      refine Slim.afterLefts ⟨?_, ?_⟩ k
      · simpa using hsigns
      · rw [Step.weight_right]
        omega
  | signed _ _ ih =>
    cases hpath with
    | @unary _ _ inner hinner =>
      obtain ⟨hsigns, hweight⟩ := ih hinner
      constructor
      · simpa using hsigns
      · rw [Step.weight_sign]
        omega
  | unsigned _ ih => exact ih hpath
  | number _ =>
    cases hpath
    exact ⟨Nat.zero_le _, Nat.zero_le _⟩
  | group _ _ _ ih =>
    obtain ⟨hsigns, hweight⟩ := ih hpath
    simp only [Phrase.tiers] at hweight ⊢
    exact ⟨by omega, by omega⟩

theorem Statement.slim (h : Statement m u s) (hpath : s.expr.Path path) : Slim m 4 path := by
  cases h with
  | print _ he _ => exact he.slim hpath
  | expression he _ => exact he.slim hpath

theorem Program.slim (h : Program m u p) : ∀ s ∈ p, ∀ path, s.expr.Path path → Slim m 4 path := by
  induction h with
  | nil => simp
  | cons hs _ ih =>
    intro s hmem path hpath
    cases hmem with
    | head => exact hs.slim hpath
    | tail _ hmem => exact ih s hmem path hpath

section Sum

def plusOne : Round := ⟨sample .plus, [sample .number], .literal (sample .number)⟩

def longSum (n : Nat) : Expr := folded (.literal (sample .number)) (List.replicate n plusOne)

def sumTokens (n : Nat) : List Token := sample .number :: spelled (List.replicate n plusOne)

theorem derives_longSum (m n : Nat) : Derives m .expr (sumTokens n) (longSum n) := by
  have hnumber : Derives m .factor [sample .number] (.literal (sample .number)) :=
    .alone .factor (.unsigned (.number rfl))
  have hsum : Derives m .term ([sample .number] ++ spelled (List.replicate n plusOne)) (longSum n) := by
    refine .level _ .term hnumber ?_ ?_
    · intro r hr
      rw [List.eq_of_mem_replicate hr]
      decide
    · intro r hr
      rw [List.eq_of_mem_replicate hr]
      exact hnumber
  exact .expr (.alone .equality (.alone .comparison hsum))

end Sum
end Grammar

namespace Parser
open Grammar

/-- What the limit `m` leaves of a path from the root of a tree: a fixed number of signs, of right steps,
and of all steps that are not left ones. -/
structure LeftLeaning (m : Nat) (path : List Step) : Prop where
  signs : path.count .sign ≤ m
  rights : path.count .right + 4 * path.count .sign ≤ 4 * (m + 1)
  others : path.length ≤ path.count .left + 4 * (m + 1)

theorem leftLeaning_of_slim {m : Nat} {path : List Step} (h : Slim m 4 path) :
    LeftLeaning m path := by
  have hrights : path.count .right + 4 * path.count .sign ≤ 4 * (m + 1) :=
    Nat.le_trans h.weight (by omega)
  have hlength := Step.length_le path
  have hweight := h.weight
  exact ⟨h.signs, hrights, by omega⟩

/-- In every tree that is read within the limit `m`, as part of a program or alone, every path from the
root to a leaf passes at most `m` signs, and each sign it passes takes four off the `4 * (m + 1)` right
steps that it may take. So only left steps can make a tree deeper than the limit says, and they can
make it as deep as one likes. -/
theorem limit_bounds_all_but_left_steps (tokens : List Token) (m : Nat) :
    (∀ p, (Reader.ofTokens tokens m).program.1 = .ok p →
      ∀ s ∈ p, ∀ path, s.expr.Path path → LeftLeaning m path) ∧
    (∀ e, (Reader.ofTokens tokens m).lone.1 = .ok e → ∀ path, e.Path path → LeftLeaning m path) ∧
    ∀ n, ∃ long e, (Reader.ofTokens long m).lone.1 = .ok e ∧ e.Path (List.replicate n .left) := by
  refine ⟨?_, ?_, ?_⟩
  · intro p hp s hs path hpath
    exact leftLeaning_of_slim ((reader_program_eq_ok.mp hp).slim s hs path hpath)
  · intro e he path hpath
    exact leftLeaning_of_slim ((reader_lone_eq_ok.mp he).slim hpath)
  · intro n
    have hderived := derives_longSum m n
    have hbody : body (sumTokens n) = sumTokens n := body_eq_self (hderived.kind_ne (by decide))
    have hfirst : (Expr.literal (sample .number)).Path [] := .literal
    have hpath := path_lefts (List.replicate n plusOne) hfirst
    rw [List.length_replicate, List.append_nil] at hpath
    exact ⟨sumTokens n, longSum n, reader_lone_eq_ok.mpr (hbody.symm ▸ hderived), hpath⟩

def rightmost (u : List Token) (e : Expr) : List Token × Expr :=
  let one := sample .number
  ([one, sample .equalEqual, one, sample .less, one, sample .plus, one, sample .star] ++ u,
    .binary (.literal one) (sample .equalEqual) (.binary (.literal one) (sample .less)
      (.binary (.literal one) (sample .plus) (.binary (.literal one) (sample .star) e))))

/-- Within the limit 2 a group and a sign, each on the right of all tiers, leave no right step over. -/
theorem limit_two_met_by_signed_group :
    let sign := rightmost [sample .minus, sample .number]
      (.unary (sample .minus) (.literal (sample .number)))
    let all := rightmost (sample .leftParen :: (sign.1 ++ [sample .rightParen])) sign.2
    let path := List.replicate 8 Step.right ++ [.sign]
    (Reader.ofTokens (all.1 ++ [sample .semicolon]) (2 : Nat)).program.1 = .ok [.expression all.2] ∧
    (Reader.ofTokens all.1 (2 : Nat)).lone.1 = .ok all.2 ∧ all.2.Path path ∧
    LeftLeaning 2 [.left] ∧ LeftLeaning 2 path ∧
    path.count .right + 4 * path.count .sign = 4 * (2 + 1) := by
  intro sign all path
  have hprogram : (Reader.ofTokens (all.1 ++ [sample .semicolon]) (2 : Nat)).program.1 =
      .ok [.expression all.2] := by rfl
  have hlone : (Reader.ofTokens all.1 (2 : Nat)).lone.1 = .ok all.2 := by rfl
  have hpath : all.2.Path path :=
    .right (.right (.right (.right (.right (.right (.right (.right (.unary .literal))))))))
  have hstatement := (limit_bounds_all_but_left_steps (all.1 ++ [sample .semicolon]) 2).1 _ hprogram
  have hexpression := (limit_bounds_all_but_left_steps all.1 2).2.1 _ hlone
  exact ⟨hprogram, hlone, hpath, hstatement (.expression all.2) (by simp) _ (.left .literal),
    hexpression path hpath, by decide⟩

end Parser
end Reckon
