/-! Sizes of binary floating-point numbers. Every finite number is a whole count of the smallest
one, and the counts that occur have at most 53 significant bits. Rounding takes the nearest such
count of a ratio, the even one of two. -/
namespace Reckon

def significandEnd : Nat := 0x20000000000000

def IsShort (n : Nat) : Prop := ∃ m s, m < significandEnd ∧ n = m * Nat.pow 2 s

/-- The smallest number is one halved so often. -/
@[irreducible] def oneBits : Nat := 1074

/-- The sizes end at the smallest one doubled so often. -/
@[irreducible] def endBits : Nat := 2098

def unitsPerOne : Nat := Nat.pow 2 oneBits

def unitsEnd : Nat := Nat.pow 2 endBits

/-- The size of a finite number, in units of the smallest one. -/
structure Magnitude where
  units : Nat
  short : IsShort units
  bounded : units < unitsEnd
deriving DecidableEq

def divHalfEven (num den : Nat) : Nat :=
  let quotient := num / den
  let rest := num % den
  if 2 * rest < den then quotient
  else if den < 2 * rest then quotient + 1
  else quotient + quotient % 2

def spareBits (n : Nat) : Nat := n.log2 - 52

def roundShort (num den : Nat) : Nat :=
  let step := Nat.pow 2 (spareBits (num / den))
  divHalfEven num (den * step) * step

theorem pow_two_le {k n : Nat} (h : k ≤ n) : Nat.pow 2 k ≤ Nat.pow 2 n :=
  Nat.pow_le_pow_right (by decide) h

theorem divHalfEven_le (num den : Nat) : divHalfEven num den ≤ num / den + 1 := by
  unfold divHalfEven
  simp only
  split
  · omega
  · split <;> omega

theorem lt_pow_spareBits (n : Nat) : n < Nat.pow 2 (53 + spareBits n) := by
  have h : n < Nat.pow 2 (n.log2 + 1) := Nat.lt_log2_self
  exact Nat.lt_of_lt_of_le h (pow_two_le (by unfold spareBits; omega))

theorem divHalfEven_le_significandEnd (num den : Nat) :
    divHalfEven num (den * Nat.pow 2 (spareBits (num / den))) ≤ significandEnd := by
  have h := lt_pow_spareBits (num / den)
  have small : num / (den * Nat.pow 2 (spareBits (num / den))) < significandEnd := by
    rw [← Nat.div_div_eq_div_mul]
    apply Nat.div_lt_of_lt_mul
    have e : Nat.pow 2 (53 + spareBits (num / den)) =
        Nat.pow 2 53 * Nat.pow 2 (spareBits (num / den)) := Nat.pow_add 2 53 _
    rw [e, Nat.mul_comm] at h
    exact h
  exact Nat.le_trans (divHalfEven_le _ _) small

theorem isShort_mul_pow {m : Nat} (s : Nat) (h : m ≤ significandEnd) :
    IsShort (m * Nat.pow 2 s) := by
  rcases Nat.lt_or_eq_of_le h with h | rfl
  · exact ⟨m, s, h, rfl⟩
  · refine ⟨0x10000000000000, s + 1, by decide, ?_⟩
    have e : Nat.pow 2 (s + 1) = Nat.pow 2 s * 2 := Nat.pow_succ 2 s
    rw [e]
    unfold significandEnd
    omega

theorem pow_le_unitsEnd {k : Nat} (h : k ≤ endBits) : Nat.pow 2 k ≤ unitsEnd :=
  pow_two_le h

theorem isShort_roundShort (num den : Nat) : IsShort (roundShort num den) :=
  isShort_mul_pow _ (divHalfEven_le_significandEnd num den)

namespace Magnitude

def ofRatio? (num den : Nat) : Option Magnitude :=
  if h : roundShort num den < unitsEnd then
    some ⟨roundShort num den, isShort_roundShort num den, h⟩
  else none

def zero : Magnitude := ⟨0, ⟨0, 0, by decide, rfl⟩, pow_le_unitsEnd (Nat.zero_le _)⟩

def fractionEnd : Nat := 0x10000000000000

theorem ofFields_bounded {exponent fraction : Nat} (h : exponent < 2047)
    (hf : fraction < fractionEnd) :
    (fraction + fractionEnd) * Nat.pow 2 (exponent - 1) < unitsEnd := by
  have hs : fraction + fractionEnd < Nat.pow 2 53 := by
    have e : Nat.pow 2 53 = 2 * fractionEnd := by decide
    omega
  have hp : 0 < Nat.pow 2 (exponent - 1) := Nat.pow_pos (by decide)
  have e : Nat.pow 2 (53 + (exponent - 1)) = Nat.pow 2 53 * Nat.pow 2 (exponent - 1) :=
    Nat.pow_add 2 53 _
  have hm := Nat.mul_lt_mul_of_pos_right hs hp
  rw [← e] at hm
  exact Nat.lt_of_lt_of_le hm (pow_le_unitsEnd (by unfold endBits; omega))

def ofFields (exponent fraction : Nat) (h : exponent < 2047) (hf : fraction < fractionEnd) :
    Magnitude :=
  if exponent = 0 then
    ⟨fraction, ⟨fraction, 0, Nat.lt_trans hf (by decide), (Nat.mul_one _).symm⟩,
      Nat.lt_of_lt_of_le hf (pow_le_unitsEnd (k := 52) (by unfold endBits; decide))⟩
  else
    ⟨(fraction + fractionEnd) * Nat.pow 2 (exponent - 1),
      ⟨fraction + fractionEnd, exponent - 1, Nat.add_lt_add_right hf fractionEnd, rfl⟩,
      ofFields_bounded h hf⟩

def fields (x : Magnitude) : Nat :=
  x.units / Nat.pow 2 (spareBits x.units) + spareBits x.units * fractionEnd

end Magnitude
end Reckon
