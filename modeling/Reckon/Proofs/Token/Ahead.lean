import Mathlib.Data.List.TakeWhile
import Reckon.Token.Cursor

/-! What is ahead of a cursor: the characters at negative positions first, then the text from its start or
from the position on. It is taken one character after the other, and the cursor moves on by one. -/
namespace Reckon.Cursor
variable {c : Cursor} {x : Char} {text rest hidden visible : List Char}

section Ahead

theorem pass_nil (c : Cursor) : c.pass [] = c := by
  simp [pass]

theorem pass_append (c : Cursor) (s t : List Char) :
    c.pass (s ++ t) = (c.pass s).pass t := by
  simp [pass, Int.add_assoc]

theorem pass_cons (c : Cursor) (x : Char) (t : List Char) : c.pass (x :: t) = (c.pass [x]).pass t :=
  pass_append c [x] t

theorem ahead?_before (h : c.position < -c.source.length) : c.ahead? = none := by
  rw [ahead?, if_pos h]

theorem ahead?_negative (hstart : -c.source.length ≤ c.position) (hneg : c.position < 0) :
    c.ahead? = some (c.source.drop (c.source.length + c.position).toNat, c.source) := by
  rw [ahead?, if_neg (by omega), if_pos hneg]

theorem ahead?_visible (h : 0 ≤ c.position) :
    c.ahead? = some ([], c.source.drop c.position.toNat) := by
  rw [ahead?, if_neg (by omega), if_neg (by omega)]

theorem exists_ahead? (h : -c.source.length ≤ c.position) :
    ∃ hidden visible, c.ahead? = some (hidden, visible) := by
  by_cases hneg : c.position < 0
  · exact ⟨_, _, ahead?_negative h hneg⟩
  · exact ⟨_, _, ahead?_visible (by omega)⟩

theorem before_of_ahead? (h : c.ahead? = none) : c.position < -c.source.length := by
  by_contra hinside
  obtain ⟨hidden, visible, hahead⟩ := exists_ahead? (c := c) (by omega)
  rw [h] at hahead
  cases hahead

/-- The hidden characters are the last ones of the text, as many as the position counts back. -/
theorem ahead?_cases (h : c.ahead? = some (hidden, visible)) :
    (hidden.length = -c.position ∧ hidden = c.source.drop (c.source.length + c.position).toNat ∧
      visible = c.source) ∨
    (0 ≤ c.position ∧ hidden = [] ∧ visible = c.source.drop c.position.toNat) := by
  by_cases hneg : c.position < 0
  · have hstart : -c.source.length ≤ c.position := by
      by_contra hbefore
      rw [ahead?_before (by omega)] at h
      cases h
    rw [ahead?_negative hstart hneg] at h
    cases h
    refine .inl ⟨?_, rfl, rfl⟩
    rw [List.length_drop]
    omega
  · rw [ahead?_visible (by omega)] at h
    cases h
    exact .inr ⟨by omega, rfl, rfl⟩

def remaining (c : Cursor) : Int :=
  max c.position c.source.length - c.position

theorem rounds_pos {rounds : Nat} (h : c.remaining < rounds) : 0 < rounds := by
  rw [remaining] at h
  omega

theorem length_ahead (h : c.ahead? = some (hidden, visible)) :
    ((hidden ++ visible).length : Int) = c.remaining := by
  rw [remaining]
  obtain ⟨hlength, -, rfl⟩ | ⟨hpos, rfl, rfl⟩ := ahead?_cases h
  · rw [List.length_append]
    omega
  · rw [List.nil_append, List.length_drop]
    omega

theorem length_shown (h : c.ahead? = some ([], visible)) : (visible.length : Int) = c.remaining :=
  length_ahead h

theorem ahead?_hidden (h : c.ahead? = some (x :: hidden, visible)) :
    (c.pass [x]).ahead? = some (hidden, visible) := by
  obtain ⟨hlength, hhidden, rfl⟩ | ⟨-, hnil, -⟩ := ahead?_cases h
  · have hsource := congrArg List.length hhidden
    rw [List.length_drop] at hsource
    rw [List.length_cons] at hlength hsource
    have htail := congrArg List.tail hhidden
    rw [List.tail_drop] at htail
    by_cases hlast : c.position = -1
    · have hnil : hidden = [] := List.length_eq_zero_iff.mp (by omega)
      rw [ahead?_visible (by simp [pass, hlast]), hnil]
      simp [pass, hlast]
    · rw [ahead?_negative (by simp [pass]; omega) (by simp [pass]; omega)]
      have hindex : (c.source.length + (c.position + 1)).toNat =
          (c.source.length + c.position).toNat + 1 := by omega
      change some (c.source.drop (c.source.length + (c.position + 1)).toNat, c.source) = _
      rw [hindex, ← htail]
      rfl
  · cases hnil

theorem ahead?_shown (h : c.ahead? = some ([], x :: visible)) :
    (c.pass [x]).ahead? = some ([], visible) := by
  obtain ⟨hlength, -, hvisible⟩ | ⟨hpos, -, hvisible⟩ := ahead?_cases h
  · have hzero : c.position = 0 := by
      rw [List.length_nil] at hlength
      omega
    rw [ahead?_visible (by simp [pass, hzero])]
    simp [pass, hzero, ← hvisible]
  · rw [ahead?_visible (by simp [pass]; omega)]
    have hindex : (c.position + 1).toNat = c.position.toNat + 1 := by omega
    change some (([] : List Char), c.source.drop (c.position + 1).toNat) = _
    rw [hindex, ← List.tail_drop, ← hvisible]
    rfl

theorem ahead?_pass_hidden (h : c.ahead? = some (text ++ hidden, visible)) :
    (c.pass text).ahead? = some (hidden, visible) := by
  induction text generalizing c with
  | nil => rwa [pass_nil]
  | cons x text ih =>
    rw [pass_cons]
    exact ih (ahead?_hidden h)

theorem ahead?_pass_shown (h : c.ahead? = some ([], text ++ visible)) :
    (c.pass text).ahead? = some ([], visible) := by
  induction text generalizing c with
  | nil => rwa [pass_nil]
  | cons x text ih =>
    rw [pass_cons]
    exact ih (ahead?_shown h)

end Ahead

section Characters

def Ahead (c : Cursor) (text : List Char) : Prop :=
  ∃ hidden visible, c.ahead? = some (hidden, visible) ∧ hidden ++ visible = text

theorem ahead_append (h : c.ahead? = some (hidden, visible)) : c.Ahead (hidden ++ visible) :=
  ⟨hidden, visible, h, rfl⟩

theorem ahead_shown (h : c.ahead? = some ([], visible)) : c.Ahead visible :=
  ahead_append h

theorem Ahead.next (h : c.Ahead (x :: text)) : c.next = (.ok x, c.pass [x]) := by
  obtain ⟨hidden, visible, hahead, htext⟩ := h
  simp [Cursor.next, hahead, htext]

theorem Ahead.pass (h : c.Ahead (x :: text)) : (c.pass [x]).Ahead text := by
  obtain ⟨hidden, visible, hahead, htext⟩ := h
  cases hidden with
  | nil =>
    rw [List.nil_append] at htext
    rw [htext] at hahead
    exact ⟨[], text, ahead?_shown hahead, rfl⟩
  | cons y hidden =>
    obtain ⟨rfl, htail⟩ := List.cons.inj htext
    exact ⟨hidden, visible, ahead?_hidden hahead, htail⟩

theorem atEnd_eq (c : Cursor) : c.atEnd = decide (c.remaining = 0) := by
  rw [atEnd, remaining, decide_eq_decide]
  omega

theorem Ahead.atEnd (h : c.Ahead text) : c.atEnd = text.isEmpty := by
  obtain ⟨hidden, visible, hahead, rfl⟩ := h
  rw [atEnd_eq, ← length_ahead hahead]
  cases hidden ++ visible with
  | nil => rfl
  | cons x rest => exact decide_eq_false (by simp; omega)

theorem atEnd_before (h : c.ahead? = none) : c.atEnd = false := by
  have hbefore := before_of_ahead? h
  exact decide_eq_false (by omega)

end Characters

section Seen

theorem visible_shown (h : c.ahead? = some ([], visible)) : c.visible = visible := by
  obtain ⟨hlength, -, rfl⟩ | ⟨hpos, -, rfl⟩ := ahead?_cases h
  · have hzero : c.position = 0 := by
      rw [List.length_nil] at hlength
      omega
    simp [Cursor.visible, hzero]
  · rw [Cursor.visible, if_neg (by omega)]

theorem visible_hidden (h : c.ahead? = some (x :: hidden, visible)) : c.visible = [] := by
  obtain ⟨hlength, -, -⟩ | ⟨-, hnil, -⟩ := ahead?_cases h
  · rw [List.length_cons] at hlength
    rw [Cursor.visible, if_pos (by omega)]
  · cases hnil

theorem visible_before (h : c.ahead? = none) : c.visible = [] := by
  have hbefore := before_of_ahead? h
  rw [Cursor.visible, if_pos (by omega)]

theorem ahead?_of_visible (h : c.visible = x :: rest) : c.ahead? = some ([], x :: rest) := by
  have hpos : 0 ≤ c.position := by
    by_contra hneg
    rw [Cursor.visible, if_pos (by omega)] at h
    cases h
  rw [ahead?_visible hpos, ← h, Cursor.visible, if_neg (by omega)]

theorem visible_pass (h : c.visible = text ++ rest) : (c.pass text).visible = rest := by
  cases text with
  | nil => rwa [pass_nil]
  | cons x text => exact visible_shown (ahead?_pass_shown (ahead?_of_visible h))

theorem peek_zero (c : Cursor) : c.peek 0 = c.visible.head? := by
  rw [peek, Cursor.visible, Int.add_zero]
  split
  · rfl
  · rw [List.head?_drop]

theorem peek_one (h : c.visible = x :: rest) : c.peek 1 = rest.head? := by
  have hrest : (c.pass [x]).visible = rest := visible_pass h
  rw [← hrest, ← peek_zero]
  simp [peek, pass]

theorem length_visible_le (c : Cursor) : (c.visible.length : Int) ≤ c.remaining := by
  rw [Cursor.visible, remaining]
  split
  · rw [List.length_nil]
    omega
  · rw [List.length_drop]
    omega

theorem remaining_pass_le (c : Cursor) (text : List Char) : (c.pass text).remaining ≤ c.remaining := by
  simp only [remaining, pass]
  omega

theorem remaining_pass_lt (h : c.remaining ≠ 0) (htext : text ≠ []) :
    (c.pass text).remaining < c.remaining := by
  have hpos := List.length_pos_iff.mpr htext
  simp only [remaining, pass] at h ⊢
  omega

theorem ahead?_end (h : c.remaining = 0) : c.ahead? = some ([], []) := by
  rw [remaining] at h
  rw [ahead?_visible (by omega), List.drop_of_length_le (by omega)]

end Seen

end Reckon.Cursor
