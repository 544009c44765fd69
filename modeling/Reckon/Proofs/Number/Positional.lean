import Mathlib.Data.List.Induction
import Reckon.Proofs.Number.Decimal
import Reckon.Proofs.Number.Numeral

/-! Decimals written out. The text without an exponent is a plain numeral, and reading it gives a
decimal of the same value: what is cut off are zeros at the end of the fraction. -/
namespace Reckon
open Lexer (IsDigits Form)

namespace Numeral
variable {s t : List Char}

theorem valueOf_concat (s : List Char) (d : Char) :
    valueOf (s ++ [d]) = 10 * valueOf s + (d.toNat - 48) := by
  simp [valueOf]

theorem valueOf_append (s t : List Char) :
    valueOf (s ++ t) = valueOf s * Nat.pow 10 t.length + valueOf t := by
  induction t using List.reverseRecOn with
  | nil => simp [valueOf]
  | append_singleton t d ih =>
    have hpow : Nat.pow 10 (t ++ [d]).length = Nat.pow 10 t.length * 10 := by
      rw [List.length_append, pow_sum]
      rfl
    rw [← List.append_assoc, valueOf_concat, ih, valueOf_concat, hpow]
    ring

theorem valueOf_zeros (h : ∀ x ∈ t, x = '0') : valueOf t = 0 := by
  rw [List.eq_replicate_of_mem h]
  induction t.length with
  | zero => rfl
  | succ n ih =>
    rw [List.replicate_succ', valueOf_concat, ih]
    rfl

theorem decimal?_pointed (hs : IsDigits s) (ht : ∀ x ∈ t, isDigit x) :
    decimal? (s ++ if t = [] then [] else '.' :: t) = some ⟨valueOf (s ++ t), -t.length⟩ := by
  split
  · rename_i hnil
    subst hnil
    simpa using decimal?_whole hs
  · rename_i hne
    exact decimal?_fraction hs (Lexer.isDigits_of_all hne ht)

theorem form_pointed (hs : IsDigits s) (ht : ∀ x ∈ t, isDigit x) :
    Form (s ++ if t = [] then [] else '.' :: t) .number := by
  split
  · rw [List.append_nil]
    exact .whole hs
  · rename_i hne
    exact .fraction hs (Lexer.isDigits_of_all hne ht)

end Numeral

namespace Text

theorem trimEnd_append (p : Char → Bool) (cs : List Char) :
    ∃ cut, cs = trimEnd p cs ++ cut ∧ ∀ x ∈ cut, p x := by
  refine ⟨(cs.reverse.takeWhile p).reverse, ?_, ?_⟩
  · rw [trimEnd, ← List.reverse_append, List.takeWhile_append_dropWhile, List.reverse_reverse]
  · intro x hx
    exact List.mem_takeWhile_imp (List.mem_reverse.mp hx)

variable {p : Char → Bool} {c : Char}

/-- A character outside the class stops the cut. -/
theorem trimEnd_stop (hc : p c = false) (front tail : List Char) :
    trimEnd p (front ++ c :: tail) = front ++ c :: trimEnd p tail := by
  have hreverse : (front ++ c :: tail).reverse = tail.reverse ++ c :: front.reverse := by simp
  rw [trimEnd, trimEnd, hreverse, List.dropWhile_append, List.dropWhile_cons_of_neg (by simp [hc])]
  split
  · rename_i hnone
    rw [List.isEmpty_iff.mp hnone]
    simp
  · simp

theorem trimEnd_concat (hc : p c = true) (front : List Char) :
    trimEnd p (front ++ [c]) = trimEnd p front := by
  simp [trimEnd, hc]

theorem last_trimEnd {cs front : List Char} (h : trimEnd p cs = front ++ [c]) : p c = false := by
  have hdrop : cs.reverse.dropWhile p = c :: front.reverse := by
    rw [← List.reverse_reverse (cs.reverse.dropWhile p), ← trimEnd, h]
    simp
  have hhead := List.head?_dropWhile_not p cs.reverse
  rw [hdrop] at hhead
  exact hhead

end Text

namespace Decimal
open Numeral

theorem isDigits_numeral (n : Nat) : IsDigits (numeral n) := by
  apply Lexer.isDigits_of_all
  · unfold numeral
    split <;> simp
  · fun_induction numeral n with
    | case1 n h => simpa using isDigit_digitChar n h
    | case2 n h ih =>
      simp only [List.mem_append, List.mem_singleton]
      rintro x (hx | rfl)
      · exact ih x hx
      · exact isDigit_digitChar _ (Nat.mod_lt n (by decide))

theorem valueOf_numeral (n : Nat) : valueOf (numeral n) = n := by
  fun_induction numeral n with
  | case1 n h =>
    have hdigit := toNat_digitChar n h
    simpa [valueOf] using hdigit
  | case2 n h ih =>
    rw [valueOf_concat, ih, toNat_digitChar _ (Nat.mod_lt n (by decide))]
    omega

theorem isDigit_lastDigits (width n : Nat) : ∀ x ∈ lastDigits width n, isDigit x := by
  induction width generalizing n with
  | zero => simp [lastDigits]
  | succ width ih =>
    simp only [lastDigits, List.mem_append, List.mem_singleton]
    rintro x (hx | rfl)
    · exact ih _ x hx
    · exact isDigit_digitChar _ (Nat.mod_lt n (by decide))

theorem length_lastDigits (width n : Nat) : (lastDigits width n).length = width := by
  induction width generalizing n with
  | zero => rfl
  | succ width ih => simp [lastDigits, ih]

theorem valueOf_lastDigits (width n : Nat) :
    valueOf (lastDigits width n) = n % Nat.pow 10 width := by
  induction width generalizing n with
  | zero =>
    simp [lastDigits, valueOf, Nat.mod_one]
  | succ width ih =>
    have hpow : Nat.pow 10 (width + 1) = 10 * Nat.pow 10 width := Nat.pow_succ'
    rw [lastDigits, valueOf_concat, ih, toNat_digitChar _ (Nat.mod_lt n (by decide)), hpow,
      Nat.mod_mul]
    omega

def places (d : Decimal) : Nat := (-d.exponent).toNat

def whole (d : Decimal) : Nat :=
  d.digits * Nat.pow 10 d.exponent.toNat / Nat.pow 10 d.places

def fraction (d : Decimal) : List Char :=
  Text.trimEnd (· == '0') (lastDigits d.places (d.digits % Nat.pow 10 d.places))

theorem positional_eq (d : Decimal) :
    d.positional = numeral d.whole ++ if d.fraction = [] then [] else '.' :: d.fraction := rfl

theorem lastDigits_eq (d : Decimal) :
    ∃ cut, lastDigits d.places (d.digits % Nat.pow 10 d.places) = d.fraction ++ cut ∧
      ∀ x ∈ cut, x = '0' := by
  obtain ⟨cut, hcut, hzeros⟩ := Text.trimEnd_append (· == '0')
    (lastDigits d.places (d.digits % Nat.pow 10 d.places))
  exact ⟨cut, hcut, fun x hx => by simpa using hzeros x hx⟩

theorem isDigit_fraction (d : Decimal) : ∀ x ∈ d.fraction, isDigit x := by
  obtain ⟨cut, hcut, -⟩ := lastDigits_eq d
  intro x hx
  apply isDigit_lastDigits
  rw [hcut]
  exact List.mem_append_left cut hx

theorem form_positional (d : Decimal) : Form d.positional .number :=
  form_pointed (isDigits_numeral _) (isDigit_fraction d)

/-- A decimal has digits after the point or zeros before it, never both. -/
theorem num_mod (d : Decimal) :
    d.digits * Nat.pow 10 d.exponent.toNat % Nat.pow 10 d.places =
      d.digits % Nat.pow 10 d.places := by
  rcases Int.le_total 0 d.exponent with h | h
  · have hplaces : d.places = 0 := by
      unfold places
      omega
    simp [hplaces, Nat.mod_one]
  · have hshift : d.exponent.toNat = 0 := by omega
    simp [hshift]

/-- The digits of the text, and the zeros cut off, are those of the decimal. -/
theorem num_eq (d : Decimal) :
    ∃ k, d.places = d.fraction.length + k ∧
      d.digits * Nat.pow 10 d.exponent.toNat =
        valueOf (numeral d.whole ++ d.fraction) * Nat.pow 10 k := by
  obtain ⟨cut, hcut, hzeros⟩ := lastDigits_eq d
  have hlength : d.places = d.fraction.length + cut.length := by
    rw [← List.length_append, ← hcut, length_lastDigits]
  have hrest : d.digits % Nat.pow 10 d.places = valueOf d.fraction * Nat.pow 10 cut.length := by
    have hvalue := congrArg valueOf hcut
    rwa [valueOf_lastDigits, Nat.mod_mod, valueOf_append, valueOf_zeros hzeros,
      Nat.add_zero] at hvalue
  refine ⟨cut.length, hlength, ?_⟩
  calc
    d.digits * Nat.pow 10 d.exponent.toNat =
        Nat.pow 10 d.places * d.whole + d.digits % Nat.pow 10 d.places := by
      rw [← num_mod]
      exact (Nat.div_add_mod _ _).symm
    _ = (d.whole * Nat.pow 10 d.fraction.length + valueOf d.fraction) * Nat.pow 10 cut.length := by
      rw [hrest, hlength, pow_sum]
      ring
    _ = valueOf (numeral d.whole ++ d.fraction) * Nat.pow 10 cut.length := by
      rw [valueOf_append, valueOf_numeral]

/-- The value by the digits of the text. -/
theorem value_written (d : Decimal) :
    d.value = (valueOf (numeral d.whole ++ d.fraction) : ℚ) /
      ((Nat.pow 10 d.fraction.length : Nat) : ℚ) := by
  obtain ⟨k, hplaces, hnum⟩ := num_eq d
  have hden : Nat.pow 10 (-d.exponent).toNat = Nat.pow 10 d.fraction.length * Nat.pow 10 k := by
    rw [← pow_sum, ← hplaces]
    rfl
  have hzeros : ((Nat.pow 10 k : Nat) : ℚ) ≠ 0 := Nat.cast_ne_zero.mpr (Nat.pow_pos (by decide)).ne'
  rw [value_eq_div, hnum, hden, Nat.cast_mul, Nat.cast_mul, mul_div_mul_right _ _ hzeros]

theorem decimal?_positional (d : Decimal) :
    ∃ d', decimal? d.positional = some d' ∧ d'.value = d.value := by
  rw [positional_eq]
  refine ⟨_, decimal?_pointed (isDigits_numeral _) (isDigit_fraction d), ?_⟩
  rw [value_written d, value_eq_div]
  simp

/-- Writing a decimal out and reading the text gives the number that the decimal is read as. -/
theorem number?_positional (d : Decimal) :
    number? (String.ofList d.positional) = some (d.toNumber false) := by
  obtain ⟨d', hread, hvalue⟩ := decimal?_positional d
  rw [number?_form (form_positional d), hread, Option.map_some, toNumber_congr false hvalue]

end Decimal
end Reckon
