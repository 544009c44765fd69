import Mathlib.Algebra.Order.Field.Rat
import Reckon.Proofs.Number.Rounding

/-! Decimals as rational numbers. The size that a decimal is read as depends on its value alone, and
the decimal chosen for a size is read back as that size. -/
namespace Reckon.Decimal

variable {d d' : Decimal}

def value (d : Decimal) : ℚ := d.digits * 10 ^ d.exponent

theorem value_eq_div (d : Decimal) :
    d.value = ((d.digits * Nat.pow 10 d.exponent.toNat : Nat) : ℚ) /
      ((Nat.pow 10 (-d.exponent).toNat : Nat) : ℚ) := by
  rcases Int.le_total 0 d.exponent with h | h
  · obtain ⟨n, hn⟩ := Int.eq_ofNat_of_zero_le h
    simp [value, hn]
  · obtain ⟨n, hn⟩ := Int.exists_eq_neg_ofNat h
    simp [value, hn, div_eq_mul_inv]

section Bounds

theorem unitsEnd_le {n : Nat} (h : 310 ≤ n) : unitsEnd ≤ Nat.pow 10 n * unitsPerOne := by
  induction n, h using Nat.le_induction with
  | base =>
    unfold unitsEnd unitsPerOne endBits oneBits
    decide +kernel
  | succ n _ ih =>
    apply Nat.le_trans ih
    apply Nat.mul_le_mul_right
    exact Nat.pow_le_pow_right (by decide) (Nat.le_succ n)

theorem four_unitsPerOne_le {n : Nat} (h : 332 ≤ n) : 4 * unitsPerOne ≤ Nat.pow 10 n := by
  induction n, h using Nat.le_induction with
  | base =>
    unfold unitsPerOne oneBits
    decide +kernel
  | succ n _ ih =>
    apply Nat.le_trans ih
    exact Nat.pow_le_pow_right (by decide) (Nat.le_succ n)

/-- From the largest exponent on every decimal is too large. -/
theorem unitsEnd_le_num (hdigits : d.digits ≠ 0) (h : 309 < d.exponent) :
    unitsEnd ≤ d.digits * Nat.pow 10 d.exponent.toNat * unitsPerOne := by
  calc
    unitsEnd ≤ Nat.pow 10 d.exponent.toNat * unitsPerOne := unitsEnd_le (by omega)
    _ ≤ d.digits * (Nat.pow 10 d.exponent.toNat * unitsPerOne) :=
      Nat.le_mul_of_pos_left _ (Nat.pos_of_ne_zero hdigits)
    _ = d.digits * Nat.pow 10 d.exponent.toNat * unitsPerOne := (Nat.mul_assoc _ _ _).symm

/-- A decimal that is read as zero for its exponent alone is less than half a unit. -/
theorem two_num_lt_den (h : d.exponent + d.digits.log2 < -331) :
    2 * (d.digits * unitsPerOne) < Nat.pow 10 (-d.exponent).toNat := by
  have hdigits : d.digits < Nat.pow 2 (d.digits.log2 + 1) := Nat.lt_log2_self
  have hsucc : Nat.pow 2 (d.digits.log2 + 1) = Nat.pow 2 d.digits.log2 * 2 := Nat.pow_succ 2 _
  have hunits : 0 < unitsPerOne := Nat.pow_pos (by decide)
  have hten : Nat.pow 2 d.digits.log2 ≤ Nat.pow 10 d.digits.log2 :=
    Nat.pow_le_pow_left (by decide) _
  obtain ⟨more, hmore⟩ : ∃ more, (-d.exponent).toNat = d.digits.log2 + more :=
    ⟨(-d.exponent).toNat - d.digits.log2, by omega⟩
  calc
    2 * (d.digits * unitsPerOne) < 2 * (Nat.pow 2 d.digits.log2 * 2 * unitsPerOne) := by
      rw [← hsucc]
      exact Nat.mul_lt_mul_of_pos_left (Nat.mul_lt_mul_of_pos_right hdigits hunits) (by decide)
    _ = Nat.pow 2 d.digits.log2 * (4 * unitsPerOne) := by ring
    _ ≤ Nat.pow 10 d.digits.log2 * Nat.pow 10 more :=
      Nat.mul_le_mul hten (four_unitsPerOne_le (by omega))
    _ = Nat.pow 10 (-d.exponent).toNat := by rw [hmore, pow_sum]

end Bounds

/-- The bounds on exponents only spare long powers. -/
theorem toMagnitude?_eq (d : Decimal) :
    d.toMagnitude? = Magnitude.ofRatio? (d.digits * Nat.pow 10 d.exponent.toNat * unitsPerOne)
      (Nat.pow 10 (-d.exponent).toNat) := by
  unfold toMagnitude?
  split
  · rename_i hzero
    symm
    apply Magnitude.ofRatio?_eq_zero
    rw [hzero]
    simp
  · rename_i hdigits
    split
    · rename_i hlarge
      symm
      apply Magnitude.ofRatio?_eq_none
      have hden : (-d.exponent).toNat = 0 := by omega
      rw [hden]
      simpa using unitsEnd_le_num hdigits hlarge
    · split
      · rename_i hsmall
        symm
        apply Magnitude.ofRatio?_eq_zero
        have hnum : d.exponent.toNat = 0 := by omega
        rw [hnum]
        simpa using two_num_lt_den hsmall
      · rfl

theorem toMagnitude?_congr (h : d.value = d'.value) : d.toMagnitude? = d'.toMagnitude? := by
  have hden : ∀ e : Int, 0 < Nat.pow 10 e.toNat := fun e => Nat.pow_pos (by decide)
  have hcast : ∀ e : Int, ((Nat.pow 10 e.toNat : Nat) : ℚ) ≠ 0 :=
    fun e => Nat.cast_ne_zero.mpr (hden e).ne'
  rw [value_eq_div, value_eq_div, div_eq_div_iff (hcast _) (hcast _)] at h
  have hcross : d.digits * Nat.pow 10 d.exponent.toNat * Nat.pow 10 (-d'.exponent).toNat =
      d'.digits * Nat.pow 10 d'.exponent.toNat * Nat.pow 10 (-d.exponent).toNat := by
    exact_mod_cast h
  rw [toMagnitude?_eq, toMagnitude?_eq]
  apply Magnitude.ofRatio?_congr (hden _) (hden _)
  rw [Nat.mul_right_comm, hcross, Nat.mul_right_comm]

theorem toNumber_congr (negative : Bool) (h : d.value = d'.value) :
    d.toNumber negative = d'.toNumber negative := by
  simp only [toNumber, toMagnitude?_congr h]

theorem toMagnitude?_finest (x : Magnitude) :
    toMagnitude? ⟨x.units * Nat.pow 5 oneBits, -oneBits⟩ = some x := by
  have hten : Nat.pow 5 oneBits * unitsPerOne = Nat.pow 10 oneBits :=
    (Nat.mul_pow 5 2 oneBits).symm
  have hread := Magnitude.ofRatio?_units x (show 0 < Nat.pow 10 oneBits from Nat.pow_pos (by decide))
  have hnum : x.units * Nat.pow 5 oneBits * Nat.pow 10 (-(oneBits : Int)).toNat * unitsPerOne =
      x.units * Nat.pow 10 oneBits := by
    rw [← hten]
    simp [Nat.mul_assoc]
  have hden : (- -(oneBits : Int)).toNat = oneBits := by omega
  rw [toMagnitude?_eq, hnum, hden]
  exact hread

theorem toMagnitude?_of_onGrid? {x : Magnitude} {exponent : Int} (h : onGrid? x exponent = some d) :
    d.toMagnitude? = some x := by
  simpa using List.find?_some h

theorem toMagnitude?_shortestFrom (x : Magnitude) (k : Nat) :
    (shortestFrom x k).toMagnitude? = some x := by
  induction k with
  | zero => exact toMagnitude?_finest x
  | succ k ih =>
    rw [shortestFrom]
    cases hgrid : onGrid? x (k + 1 - oneBits) with
    | none => exact ih
    | some d => exact toMagnitude?_of_onGrid? hgrid

theorem toNumber_of_toMagnitude? {x : Magnitude} (negative : Bool) (h : d.toMagnitude? = some x) :
    d.toNumber negative = .finite negative x := by
  simp [toNumber, h]

theorem toNumber_shortest (negative : Bool) (x : Magnitude) :
    (shortest x).toNumber negative = .finite negative x :=
  toNumber_of_toMagnitude? negative (toMagnitude?_shortestFrom x _)

end Reckon.Decimal
