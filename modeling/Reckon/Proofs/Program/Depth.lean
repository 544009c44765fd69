import Reckon.Proofs.Program.Rendering

/-! Trees that have more levels than can be walked down. They have no value and cannot be shown, and
a long run of operators of one tier makes one, for it is folded to the left. -/
namespace Reckon
variable {e : Expr} {s : Stmt} {p : List Stmt} {room : Nat} {style : Style}

section Walks

theorem height_le_of_value {x : Number} (h : e.value room = .ok x) : e.height ≤ room := by
  induction e generalizing room x with
  | literal token =>
    cases room with
    | zero => cases h
    | succ room => simp [Expr.height]
  | unary op right ih =>
    cases room with
    | zero => cases h
    | succ room =>
      cases hright : right.value room with
      | error halt =>
        rw [Expr.value_unary_error hright] at h
        cases h
      | ok y => exact Nat.succ_le_succ (ih hright)
  | binary left op right ihl ihr =>
    cases room with
    | zero => cases h
    | succ room =>
      cases hleft : left.value room with
      | error halt =>
        rw [Expr.value_binary_left hleft] at h
        cases h
      | ok y =>
        cases hright : right.value room with
        | error halt =>
          rw [Expr.value_binary_right hleft hright] at h
          cases h
        | ok z => exact Nat.succ_le_succ (Nat.max_le.mpr ⟨ihl hleft, ihr hright⟩)

theorem render_of_lt_height (h : room < e.height) : e.toNode.render room = .error .tooDeep := by
  induction e generalizing room with
  | literal token =>
    obtain rfl : room = 0 := Nat.lt_one_iff.mp h
    rfl
  | unary op right ih =>
    cases room with
    | zero => rfl
    | succ room =>
      have hright := ih (Nat.lt_of_succ_lt_succ h)
      rw [Expr.toNode, Node.render, hright]
      rfl
  | binary left op right ihl ihr =>
    cases room with
    | zero => rfl
    | succ room =>
      rw [Expr.toNode, Node.render]
      by_cases hl : room < left.height
      · rw [ihl hl]
        rfl
      · -- the left operand can be shown, so that the right one is too deep
        have hr : room < right.height := by
          simp only [Expr.height] at h
          omega
        rw [render_eq_shown (Nat.le_of_not_lt hl), ihr hr]
        rfl

theorem render?_of_levels_le (h : Node.levels ≤ s.expr.height) : s.render? = none := by
  have hlevels : Node.levels = (Node.levels - 1) + 1 := rfl
  have hinner : s.expr.toNode.render (Node.levels - 1) = .error .tooDeep := by
    refine render_of_lt_height ?_
    omega
  rw [Stmt.render?, hlevels]
  cases s with
  | expression e =>
    rw [Stmt.toNode, Node.render, show e.toNode.render _ = _ from hinner]
    rfl
  | print keyword e =>
    rw [Stmt.toNode, Node.render, show e.toNode.render _ = _ from hinner]
    rfl

end Walks

section Programs

theorem Stmt.height_lt_of_value {x : Number} (h : s.value = .ok x) :
    s.expr.height < Node.levels := by
  unfold Stmt.value at h
  split at h
  · rename_i hvalue
    have hle := height_le_of_value hvalue
    have hlevels : Node.levels = (Node.levels - 1) + 1 := rfl
    omega
  · cases h
  · cases h

/-- A tree too deep of which nothing else has no value is reported at its first token. -/
theorem Stmt.value_of_levels_le (hregular : s.expr.Regular) (hnone : s.expr.unsupported? = none)
    (h : Node.levels ≤ s.expr.height) : s.value = .error (.evaluation .nesting s.first) := by
  obtain ⟨x, hx, -⟩ | ⟨op, -, hsome⟩ | ⟨hnesting, -⟩ := Stmt.value_verdict hregular
  · exact absurd (Stmt.height_lt_of_value hx) (Nat.not_lt.mpr h)
  · rw [hnone] at hsome
    cases hsome
  · exact hnesting

def TooDeep (p : List Stmt) : Prop := ∃ s ∈ p, Node.levels ≤ s.expr.height

theorem not_tooDeep_iff : ¬ TooDeep p ↔ ∀ s ∈ p, s.expr.height < Node.levels := by
  simp [TooDeep]

theorem renderProgram?_of_tooDeep (h : TooDeep p) : renderProgram? p = none := by
  have hmap : p.mapM Stmt.render? = none := by
    induction p with
    | nil => simp [TooDeep] at h
    | cons s p ih =>
      rw [List.mapM_cons]
      obtain ⟨r, hr, hlevels⟩ := h
      cases hr with
      | head => rw [render?_of_levels_le hlevels, Option.bind_eq_bind, Option.bind_none]
      | tail _ hr =>
        rw [ih ⟨r, hr, hlevels⟩]
        cases s.render? <;> rfl
  rw [renderProgram?, hmap, Option.map_none]

/-- A program with a tree too deep does not run to its end. -/
theorem execute_of_tooDeep (style : Style) (h : TooDeep p) :
    ∃ f, (execute style p).2 = .error f := by
  obtain ⟨s, hs, hlevels⟩ := h
  cases hrun : (execute style p).2 with
  | error f => exact ⟨f, rfl⟩
  | ok values =>
    obtain ⟨x, hx⟩ := exists_value_ok (Prod.ext rfl hrun) s hs
    exact absurd (Stmt.height_lt_of_value hx) (Nat.not_lt.mpr hlevels)

end Programs

section Folding
open Grammar

/-- Each round adds a level above what it is folded onto. -/
theorem length_le_height_folded (first : Expr) (rounds : List Round) :
    first.height + rounds.length ≤ (folded first rounds).height := by
  induction rounds generalizing first with
  | nil => exact Nat.le_refl _
  | cons r rounds ih =>
    have hmore := ih (.binary first r.op r.tree)
    simp only [Expr.height] at hmore
    simp only [folded_cons, List.length_cons]
    omega

theorem first_folded (first : Expr) (rounds : List Round) :
    (folded first rounds).first = first.first := by
  induction rounds generalizing first with
  | nil => rfl
  | cons r rounds ih => exact ih (.binary first r.op r.tree)

/-- The rounds are applied one after the other, each once its operand has a value. -/
theorem operators_folded (first : Expr) (rounds : List Round) :
    (folded first rounds).operators =
      first.operators ++ rounds.flatMap fun r => r.tree.operators ++ [r.op] := by
  induction rounds generalizing first with
  | nil => simp
  | cons r rounds ih => simp [ih, Expr.operators]

end Folding

end Reckon
