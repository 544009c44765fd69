import Reckon.Proofs.Grammar.Recognition

/-! Properties of the trees that derivations spell. A tree is put together from the tokens of its
phrase, so what numbers have and operations take over from their operands, every tree has. -/
namespace Reckon.Grammar

/-- Every number has `P`, and a sign or an operator makes trees with `P` of trees with `P`, as long as
the tokens have `Q`. -/
structure Inherited (Q : Token → Prop) (P : Expr → Prop) : Prop where
  literal : ∀ {t}, Q t → t.kind = .number → P (.literal t)
  unary : ∀ {op right}, Q op → op.kind ∈ Kind.signs → P right → P (.unary op right)
  binary : ∀ {left op right}, Q op → op.kind ∈ Parser.tiers.flatten → P left → P right →
    P (.binary left op right)

variable {Q : Token → Prop} {P : Expr → Prop} {m : Nat} {x y : Phrase} {ops : List Kind}
  {u : List Token} {e : Expr} {s : Stmt} {p : List Stmt}

theorem Level.mem_tiers (h : Level x ops y) : ∀ k ∈ ops, k ∈ Parser.tiers.flatten := by
  cases h <;> decide

theorem Inherited.folded {first : Expr} {rounds : List Round} (hP : Inherited Q P)
    (hops : ∀ k ∈ ops, k ∈ Parser.tiers.flatten) (hfirst : P first)
    (hrounds : ∀ r ∈ rounds, r.op.kind ∈ ops ∧ Q r.op ∧ P r.tree) : P (folded first rounds) := by
  induction rounds generalizing first with
  | nil => exact hfirst
  | cons r rounds ih =>
    obtain ⟨hkind, hop, htree⟩ := hrounds r (by simp)
    have hnext : P (.binary first r.op r.tree) := hP.binary hop (hops _ hkind) hfirst htree
    exact ih hnext fun r' h => hrounds r' (List.mem_cons_of_mem r h)

theorem Derives.inherits (hP : Inherited Q P) (h : Derives m x u e) (hu : ∀ t ∈ u, Q t) : P e := by
  induction h with
  | expr _ ih => exact ih hu
  | level rounds hl _ hops _ ih ihs =>
    refine hP.folded hl.mem_tiers (ih fun t ht => hu t (List.mem_append_left _ ht)) ?_
    intro r hr
    have hround : ∀ t ∈ r.op :: r.tokens, Q t := fun t ht =>
      hu t (List.mem_append_right _ (List.mem_flatMap.mpr ⟨r, hr, ht⟩))
    exact ⟨hops r hr, hround _ (by simp), ihs r hr fun t ht => hround t (List.mem_cons_of_mem _ ht)⟩
  | signed hop _ ih =>
    exact hP.unary (hu _ (by simp)) (Parser.mem_signs.mpr hop)
      (ih fun t ht => hu t (List.mem_cons_of_mem _ ht))
  | unsigned _ ih => exact ih hu
  | number ht => exact hP.literal (hu _ (by simp)) ht
  | group _ _ _ ih => exact ih fun t ht => hu t (by simp [ht])

theorem Statement.inherits (hP : Inherited Q P) (h : Statement m u s) (hu : ∀ t ∈ u, Q t) :
    P s.expr := by
  cases h with
  | print _ he _ => exact he.inherits hP fun t ht => hu t (by simp [ht])
  | expression he _ => exact he.inherits hP fun t ht => hu t (by simp [ht])

theorem Program.inherits (hP : Inherited Q P) (h : Program m u p) (hu : ∀ t ∈ u, Q t) :
    ∀ s ∈ p, P s.expr := by
  induction h with
  | nil => simp
  | cons hs _ ih =>
    intro s hmem
    cases hmem with
    | head => exact hs.inherits hP fun t ht => hu t (List.mem_append_left _ ht)
    | tail _ hmem => exact ih (fun t ht => hu t (List.mem_append_right _ ht)) s hmem

end Reckon.Grammar
