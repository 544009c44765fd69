import Mathlib.Data.List.Forall2
import Reckon.Node

/-! Trees of any shape, node by node. Two trees are equal if their roots have one class and one value and
their children are equal. What is made of a tree bottom up is made of every tree within the room. -/
namespace Reckon
variable {α β γ : Type}

section Lists

theorem map_eq_iff_forall₂ {f : α → γ} {g : β → γ} {l : List α} {m : List β} :
    l.map f = m.map g ↔ List.Forall₂ (fun a b => f a = g b) l m := by
  rw [← List.forall₂_eq_eq_eq, List.forall₂_map_left_iff, List.forall₂_map_right_iff]

variable {f : α → Option β} {l : List α} {m : List β}

theorem mapM_eq_some_iff : l.mapM f = some m ↔ List.Forall₂ (fun a b => f a = some b) l m := by
  induction l generalizing m with
  | nil => simp [eq_comm]
  | cons a l ih =>
    simp only [List.mapM_cons, Option.bind_eq_bind, Option.pure_def, Option.bind_eq_some_iff,
      Option.some.injEq, List.forall₂_cons_left_iff, ih]
    grind

theorem exists_mapM (h : ∀ a ∈ l, ∃ b, f a = some b) : ∃ m, l.mapM f = some m := by
  induction l with
  | nil => exact ⟨[], rfl⟩
  | cons a l ih =>
    obtain ⟨b, hb⟩ := h a (by simp)
    obtain ⟨m, hm⟩ := ih fun a' ha' => h a' (List.mem_cons_of_mem a ha')
    exact ⟨b :: m, by simp [List.mapM_cons, hb, hm]⟩

theorem mapM_eq_of_forall₂ {l' : List α} (h : List.Forall₂ (fun a a' => f a = f a') l l') :
    l.mapM f = l'.mapM f := by
  induction h with
  | nil => rfl
  | cons ha _ ih => rw [List.mapM_cons, List.mapM_cons, ha, ih]

end Lists

namespace Node
variable {a b : Node} {room : Nat}

def height : Node → Nat
  | bare _ _ => 1
  | literal _ => 1
  | unary _ right => right.height + 1
  | binary left _ right => max left.height right.height + 1
  | expression inner => inner.height + 1
  | print _ inner => inner.height + 1

theorem height_pos (a : Node) : 0 < a.height := by
  cases a <;> simp [height]

theorem height_child : ∀ c ∈ a.children, c.height < a.height := by
  cases a <;> simp only [children, height, List.mem_cons, List.not_mem_nil, or_false, forall_eq,
    forall_eq_or_imp, IsEmpty.forall_iff, implies_true] <;> omega

theorem same_iff :
    same a b = true ↔ a.className = b.className ∧ a.value? = b.value? ∧
      List.Forall₂ (fun c d => same c d = true) a.children b.children := by
  rcases a with ⟨_ | _ | _, _⟩ | _ | ⟨_, _⟩ | ⟨_, _, _⟩ | _ | ⟨_, _⟩ <;>
    rcases b with ⟨_ | _ | _, _⟩ | _ | ⟨_, _⟩ | ⟨_, _, _⟩ | _ | ⟨_, _⟩ <;>
    simp [same, className, value?, children, Family.name, and_assoc]

/-- The class of a node decides all but its lexeme and what its children are. -/
theorem of_className (h : a.className = b.className) :
    a.label = b.label ∧ a.value?.isSome = b.value?.isSome ∧
      a.children.length = b.children.length := by
  revert h
  rcases a with ⟨_ | _ | _, _⟩ | _ | ⟨_, _⟩ | ⟨_, _, _⟩ | _ | ⟨_, _⟩ <;>
    rcases b with ⟨_ | _ | _, _⟩ | _ | ⟨_, _⟩ | ⟨_, _, _⟩ | _ | ⟨_, _⟩ <;>
    simp [className, label, value?, children, Family.name]

structure Folds (fold : Nat → Node → Option α) (make : Node → List α → α) : Prop where
  zero : ∀ node, fold 0 node = none
  succ : ∀ room node, fold (room + 1) node = (node.children.mapM (fold room)).map (make node)

section Folds
variable {fold : Nat → Node → Option α} {make : Node → List α → α} {x : α}

theorem Folds.exists_eq_some (hf : Folds fold make) (h : a.height ≤ room) :
    ∃ x, fold room a = some x := by
  induction room generalizing a with
  | zero => exact absurd h (Nat.not_le_of_gt a.height_pos)
  | succ room ih =>
    have hinner : ∀ c ∈ a.children, ∃ x, fold room c = some x := fun c hc =>
      ih (Nat.le_of_lt_succ (Nat.lt_of_lt_of_le (height_child c hc) h))
    obtain ⟨xs, hxs⟩ := exists_mapM hinner
    exact ⟨make a xs, by rw [hf.succ, hxs, Option.map_some]⟩

theorem Folds.of_eq_some (hf : Folds fold make) (h : fold (room + 1) a = some x) :
    ∃ xs, List.Forall₂ (fun c y => fold room c = some y) a.children xs ∧ make a xs = x := by
  rw [hf.succ, Option.map_eq_some_iff] at h
  obtain ⟨xs, hxs, hx⟩ := h
  exact ⟨xs, mapM_eq_some_iff.mp hxs, hx⟩

/-- Equal trees come out equal if nodes of one class and one value are made alike. -/
theorem Folds.eq_of_same (hf : Folds fold make)
    (hmake : ∀ {a b : Node}, a.className = b.className → a.value? = b.value? →
      ∀ xs, make a xs = make b xs) (h : same a b = true) (room : Nat) :
    fold room a = fold room b := by
  induction room generalizing a b with
  | zero => rw [hf.zero, hf.zero]
  | succ room ih =>
    obtain ⟨hclass, hvalue, hchildren⟩ := same_iff.mp h
    have hinner : a.children.mapM (fold room) = b.children.mapM (fold room) :=
      mapM_eq_of_forall₂ (hchildren.imp fun _ _ hsame => ih hsame)
    rw [hf.succ, hf.succ, hinner, funext (hmake hclass hvalue)]

end Folds

/-- Trees within the room are compared to the end. -/
theorem same?_eq_same (h : a.height ≤ room) (b : Node) : same? room a b = some (same a b) := by
  fun_induction same? room a b with
  | case1 a b => exact absurd h (Nat.not_le_of_gt a.height_pos)
  | case7 room a s b c t d _ hstop ih =>
    -- The left operands differ, so the right ones are not looked at.
    have hleft := ih (Nat.le_trans (Nat.le_max_left ..) (Nat.le_of_succ_le_succ h))
    have hdiffer : same a c = false := Bool.eq_false_iff.mpr fun hsame => hstop (hsame ▸ hleft)
    rw [hleft, hdiffer, same, hdiffer, Bool.and_false, Bool.false_and]
  | _ => grind [same, height]

end Node
end Reckon
