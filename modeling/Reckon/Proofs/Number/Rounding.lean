import Mathlib.Tactic.Ring
import Reckon.Number.Decimal

/-! Rounding depends on the ratio alone, and leaves alone what needs no rounding. So the size that a
decimal is read as depends only on the rational number it stands for, and every size is read back
from the decimal chosen for it. -/
namespace Reckon

variable {num den c n k : Nat}

theorem pow_sum (b m n : Nat) : Nat.pow b (m + n) = Nat.pow b m * Nat.pow b n := Nat.pow_add b m n

section Ratio

theorem divHalfEven_mul_right (num den : Nat) (hc : 0 < c) :
    divHalfEven (num * c) (den * c) = divHalfEven num den := by
  have hquotient : num * c / (den * c) = num / den := Nat.mul_div_mul_right num den hc
  have hrest : num * c % (den * c) = num % den * c := Nat.mul_mod_mul_right c num den
  have hbelow : 2 * (num % den * c) < den * c ↔ 2 * (num % den) < den := by
    rw [← Nat.mul_assoc]
    exact Nat.mul_lt_mul_right hc
  have habove : den * c < 2 * (num % den * c) ↔ den < 2 * (num % den) := by
    rw [← Nat.mul_assoc]
    exact Nat.mul_lt_mul_right hc
  simp only [divHalfEven, hquotient, hrest, hbelow, habove]

theorem roundShort_mul_right (num den : Nat) (hc : 0 < c) :
    roundShort (num * c) (den * c) = roundShort num den := by
  have hquotient : num * c / (den * c) = num / den := Nat.mul_div_mul_right num den hc
  simp only [roundShort, hquotient]
  rw [Nat.mul_right_comm den c, divHalfEven_mul_right _ _ hc]

theorem roundShort_congr {num' den' : Nat} (hden : 0 < den) (hden' : 0 < den')
    (h : num * den' = num' * den) : roundShort num den = roundShort num' den' := by
  calc
    roundShort num den = roundShort (num * den') (den * den') :=
      (roundShort_mul_right num den hden').symm
    _ = roundShort (num' * den) (den' * den) := by rw [h, Nat.mul_comm den den']
    _ = roundShort num' den' := roundShort_mul_right num' den' hden

theorem divHalfEven_exact (q : Nat) (hden : 0 < den) : divHalfEven (q * den) den = q := by
  simp [divHalfEven, Nat.mul_div_cancel q hden, hden]

/-- The bits after the first 53 of a short number are zeros. -/
theorem pow_spareBits_dvd (h : IsShort n) : Nat.pow 2 (spareBits n) ∣ n := by
  obtain ⟨m, s, hm, rfl⟩ := h
  rcases Nat.eq_zero_or_pos m with rfl | hpos
  · simp
  · have hn : m * Nat.pow 2 s ≠ 0 := Nat.mul_ne_zero (by omega) (Nat.pow_pos (by decide)).ne'
    have hbound : m * Nat.pow 2 s < Nat.pow 2 (53 + s) := by
      rw [pow_sum]
      exact Nat.mul_lt_mul_of_pos_right hm (Nat.pow_pos (by decide))
    have hlog : (m * Nat.pow 2 s).log2 < 53 + s := (Nat.log2_lt hn).mpr hbound
    have hspare : spareBits (m * Nat.pow 2 s) ≤ s := by
      unfold spareBits
      omega
    exact (Nat.pow_dvd_pow 2 hspare).mul_left m

theorem roundShort_of_isShort (h : IsShort n) (hden : 0 < den) : roundShort (n * den) den = n := by
  have hquotient : n * den / den = n := Nat.mul_div_cancel n hden
  obtain ⟨q, hq⟩ := pow_spareBits_dvd h
  have hstep : 0 < Nat.pow 2 (spareBits n) := Nat.pow_pos (by decide)
  have hnum : n * den = q * (den * Nat.pow 2 (spareBits n)) := by
    conv_lhs => rw [hq]
    ring
  simp only [roundShort, hquotient]
  rw [hnum, divHalfEven_exact q (Nat.mul_pos hden hstep), Nat.mul_comm]
  exact hq.symm

theorem roundShort_eq_zero (h : 2 * num < den) : roundShort num den = 0 := by
  have hquotient : num / den = 0 := Nat.div_eq_of_lt (by omega)
  have hrest : num % den = num := Nat.mod_eq_of_lt (by omega)
  have hstep : Nat.pow 2 (spareBits 0) = 1 := rfl
  simp only [roundShort, hquotient, hstep, Nat.mul_one, divHalfEven, hrest, h, if_true]

theorem div_le_divHalfEven (num den : Nat) : num / den ≤ divHalfEven num den := by
  unfold divHalfEven
  simp only
  split
  · exact Nat.le_refl _
  · split <;> omega

/-- Rounding never goes below a power of two. -/
theorem pow_le_roundShort (h : Nat.pow 2 k ≤ num / den) : Nat.pow 2 k ≤ roundShort num den := by
  have hpos : num / den ≠ 0 := by
    have : 0 < Nat.pow 2 k := Nat.pow_pos (by decide)
    omega
  have hlog : k ≤ (num / den).log2 := (Nat.le_log2 hpos).mpr h
  have htop : Nat.pow 2 (num / den).log2 ≤ num / den := Nat.log2_self_le hpos
  have hsplit : Nat.pow 2 (num / den).log2 =
      Nat.pow 2 ((num / den).log2 - spareBits (num / den)) *
        Nat.pow 2 (spareBits (num / den)) := by
    have hsum : (num / den).log2 - spareBits (num / den) + spareBits (num / den) =
        (num / den).log2 := by
      unfold spareBits
      omega
    rw [← pow_sum, hsum]
  have hstep : 0 < Nat.pow 2 (spareBits (num / den)) := Nat.pow_pos (by decide)
  calc
    Nat.pow 2 k ≤ Nat.pow 2 (num / den).log2 := pow_two_le hlog
    _ = _ := hsplit
    _ ≤ roundShort num den := by
      apply Nat.mul_le_mul_right
      apply Nat.le_trans _ (div_le_divHalfEven _ _)
      rw [← Nat.div_div_eq_div_mul, Nat.le_div_iff_mul_le hstep, ← hsplit]
      exact htop

end Ratio

namespace Magnitude

theorem ofRatio?_congr {num' den' : Nat} (hden : 0 < den) (hden' : 0 < den')
    (h : num * den' = num' * den) : ofRatio? num den = ofRatio? num' den' := by
  simp only [ofRatio?, roundShort_congr hden hden' h]

theorem ofRatio?_units (x : Magnitude) (hden : 0 < den) : ofRatio? (x.units * den) den = some x := by
  simp [ofRatio?, roundShort_of_isShort x.short hden, x.bounded]

theorem ofRatio?_eq_zero (h : 2 * num < den) : ofRatio? num den = some zero := by
  have hpos : 0 < unitsEnd := zero.bounded
  simp [ofRatio?, roundShort_eq_zero h, hpos, zero]

theorem ofRatio?_eq_none (h : unitsEnd ≤ num / den) : ofRatio? num den = none := by
  have hlarge : unitsEnd ≤ roundShort num den := pow_le_roundShort h
  simp [ofRatio?, hlarge]

end Magnitude
end Reckon
