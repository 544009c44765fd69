import Reckon.Proofs.Number.Positional

/-! Texts of digits and the numbers they stand for. A text of digits is told by its length and its value;
one without a zero too many at its start is told by its value alone. -/
namespace Reckon.Numeral
open Decimal
open Lexer (IsDigits)
variable {s t : List Char} {c d : Char}

theorem digitChar_digit (h : isDigit d) :
    d.toNat - 48 < 10 ∧ digitChar (d.toNat - 48) = d :=
  of_isDigit h (by decide)

/-- The last digits of a number that a text stands for are the text. -/
theorem lastDigits_valueOf (h : ∀ x ∈ s, isDigit x) : lastDigits s.length (valueOf s) = s := by
  induction s using List.reverseRecOn with
  | nil => rfl
  | append_singleton s d ih =>
    obtain ⟨hlt, hdigit⟩ := digitChar_digit (h d (by simp))
    have hfront := ih fun x hx => h x (List.mem_append_left [d] hx)
    have hdiv : (10 * valueOf s + (d.toNat - 48)) / 10 = valueOf s := by omega
    have hmod : (10 * valueOf s + (d.toNat - 48)) % 10 = d.toNat - 48 := by omega
    rw [List.length_append, List.length_singleton, valueOf_concat, lastDigits, hdiv, hmod, hfront,
      hdigit]

theorem valueOf_lt (h : ∀ x ∈ s, isDigit x) : valueOf s < Nat.pow 10 s.length := by
  have hvalue := congrArg valueOf (lastDigits_valueOf h)
  rw [valueOf_lastDigits] at hvalue
  rw [← hvalue]
  exact Nat.mod_lt _ (Nat.pow_pos (by decide))

def Unpadded : List Char → Prop
  | [] => False
  | c :: tail => isDigit c ∧ (∀ x ∈ tail, isDigit x) ∧ (c = '0' → tail = [])

theorem Unpadded.isDigits (h : Unpadded s) : IsDigits s := by
  cases s with
  | nil => exact h
  | cons c tail => exact ⟨h.1, h.2.1⟩

theorem Unpadded.take {k : Nat} (h : Unpadded s) (hk : 0 < k) : Unpadded (s.take k) := by
  obtain ⟨k, rfl⟩ := Nat.exists_eq_add_of_lt hk
  cases s with
  | nil => exact h
  | cons c tail =>
    obtain ⟨hc, htail, hzero⟩ := h
    refine ⟨hc, fun x hx => htail x (List.mem_of_mem_take hx), fun hc => ?_⟩
    rw [hzero hc, List.take_nil]

theorem Unpadded.append (h : Unpadded s) (hvalue : valueOf s ≠ 0) (ht : ∀ x ∈ t, isDigit x) :
    Unpadded (s ++ t) := by
  cases s with
  | nil => exact absurd h id
  | cons c tail =>
    obtain ⟨hc, htail, hzero⟩ := h
    rw [List.cons_append]
    refine ⟨hc, fun x hx => (List.mem_append.mp hx).elim (htail x) (ht x), ?_⟩
    rintro rfl
    rw [hzero rfl] at hvalue
    exact absurd rfl hvalue

/-- The digits of a number have no zero too many. -/
theorem unpadded_numeral (n : Nat) : Unpadded (numeral n) := by
  fun_induction numeral n with
  | case1 n h => exact ⟨isDigit_digitChar n h, by simp, fun _ => rfl⟩
  | case2 n h ih =>
    have hlast := isDigit_digitChar (n % 10) (Nat.mod_lt n (by decide))
    refine ih.append ?_ (by simpa using hlast)
    rw [valueOf_numeral]
    omega

/-- A text without a zero too many holds the digits of the number it stands for. -/
theorem numeral_valueOf (h : Unpadded s) : numeral (valueOf s) = s := by
  induction s using List.reverseRecOn with
  | nil => exact absurd h id
  | append_singleton s d ih =>
    obtain ⟨hlt, hdigit⟩ := digitChar_digit (h.isDigits.all d (by simp))
    cases s with
    | nil =>
      have hvalue : valueOf [d] = d.toNat - 48 := by simp [valueOf]
      rw [List.nil_append, hvalue, numeral, if_pos hlt, hdigit]
    | cons c tail =>
      obtain ⟨hc, htail, hzero⟩ := h
      have hne : c ≠ '0' := fun heq => by simpa using hzero heq
      have hfront := ih ⟨hc, fun x hx => htail x (List.mem_append_left [d] hx),
        fun heq => absurd heq hne⟩
      have hpos : valueOf (c :: tail) ≠ 0 := by
        intro hnone
        rw [hnone, numeral] at hfront
        exact hne (List.cons.inj hfront).1.symm
      have hdiv : (10 * valueOf (c :: tail) + (d.toNat - 48)) / 10 = valueOf (c :: tail) := by omega
      have hmod : (10 * valueOf (c :: tail) + (d.toNat - 48)) % 10 = d.toNat - 48 := by omega
      rw [valueOf_concat, numeral, if_neg (by omega), hdiv, hmod, hfront, hdigit]

end Reckon.Numeral
