import Mathlib.Computability.RegularExpressions
import Reckon.Proofs.Number.Digits
import Reckon.Proofs.Number.ReadBack

/-! The plain form of numerals. A numeral of any form is laid out by its digits: zeros are put where the
digits do not reach the point, and zeros that end a fraction are cut off, with the point if nothing stays
behind it. The text has the sign and the value of the numeral, it has one form only, and it is the text
of every finite number that the numeral spells. -/
namespace Reckon

section Form
open RegularExpression (char)
variable {s t : List Char} {c : Char}

def oneOf (cs : List Char) : RegularExpression Char :=
  cs.foldr (fun c others => char c + others) 0

def anyDigit : RegularExpression Char := oneOf "0123456789".toList

def notZero : RegularExpression Char := oneOf "123456789".toList

/-- The form `-?(0|[1-9][0-9]*)(\.[0-9]*[1-9])?` -/
def plainForm : RegularExpression Char :=
  (1 + char '-') * (char '0' + notZero * anyDigit.star) *
    (1 + char '.' * anyDigit.star * notZero)

theorem mem_oneOf {cs : List Char} (h : c ∈ cs) : [c] ∈ (oneOf cs).matches' := by
  induction cs with
  | nil => exact absurd h List.not_mem_nil
  | cons d cs ih =>
    cases h with
    | head => exact .inl rfl
    | tail _ h => exact .inr (ih h)

theorem mem_anyDigit (h : isDigit c) : [c] ∈ anyDigit.matches' :=
  mem_oneOf (of_isDigit h (by decide))

theorem mem_notZero (h : isDigit c) (hc : c ≠ '0') : [c] ∈ notZero.matches' := by
  have hmem : c ≠ '0' → c ∈ "123456789".toList := of_isDigit h (by decide)
  exact mem_oneOf (hmem hc)

theorem mem_digits (h : ∀ x ∈ s, isDigit x) : s ∈ anyDigit.star.matches' := by
  rw [RegularExpression.matches'_star, Language.mem_kstar]
  refine ⟨s.map ([·]), by rw [← List.flatMap_def, List.flatMap_singleton'], ?_⟩
  simp only [List.mem_map]
  rintro _ ⟨x, hx, rfl⟩
  exact mem_anyDigit (h x hx)

theorem mem_whole (h : Numeral.Unpadded s) :
    s ∈ (char '0' + notZero * anyDigit.star).matches' := by
  cases s with
  | nil => exact absurd h id
  | cons c tail =>
    obtain ⟨hc, htail, hzero⟩ := h
    by_cases hfirst : c = '0'
    · rw [hfirst, hzero hfirst]
      exact .inl rfl
    · exact .inr ⟨[c], mem_notZero hc hfirst, tail, mem_digits htail, rfl⟩

theorem mem_fraction (ht : ∀ x ∈ t, isDigit x) (hc : isDigit c) (hzero : c ≠ '0') :
    '.' :: (t ++ [c]) ∈ (char '.' * anyDigit.star * notZero).matches' :=
  ⟨'.' :: t, ⟨['.'], rfl, t, mem_digits ht, rfl⟩, [c], mem_notZero hc hzero, rfl⟩

end Form

namespace Decimal
open Numeral
variable {d d' : Decimal} {s t : List Char}

section Form

/-- What is left of a fraction does not end in a zero. -/
theorem fraction_cases (d : Decimal) :
    d.fraction = [] ∨ ∃ front last, d.fraction = front ++ [last] ∧ last ≠ '0' := by
  rcases List.eq_nil_or_concat' d.fraction with hnil | ⟨front, last, hlast⟩
  · exact .inl hnil
  · refine .inr ⟨front, last, hlast, ?_⟩
    have hstop := Text.last_trimEnd hlast
    simpa using hstop

theorem signed_plain (negative : Bool) (d : Decimal) : signed negative d ∈ plainForm.matches' := by
  have hsign : (if negative then ['-'] else []) ∈ (1 + RegularExpression.char '-').matches' := by
    cases negative
    · exact .inl rfl
    · exact .inr rfl
  have hwhole := mem_whole (unpadded_numeral d.whole)
  rw [signed, positional_eq, ← List.append_assoc]
  refine ⟨_, ⟨_, hsign, _, hwhole, rfl⟩, _, ?_, rfl⟩
  obtain hnil | ⟨front, last, hlast, hzero⟩ := fraction_cases d
  · rw [if_pos hnil]
    exact .inl rfl
  · have hdigits := isDigit_fraction d
    rw [hlast] at hdigits ⊢
    rw [if_neg (by simp)]
    exact .inr (mem_fraction (fun x hx => hdigits x (List.mem_append_left [last] hx))
      (hdigits last (by simp)) hzero)

end Form

section Value

def spelled (d : Decimal) : Nat := valueOf (numeral d.whole ++ d.fraction)

theorem spelled_mul (h : d.value = d'.value) :
    d.spelled * Nat.pow 10 d'.fraction.length = d'.spelled * Nat.pow 10 d.fraction.length := by
  have hpos : ∀ n, ((Nat.pow 10 n : Nat) : ℚ) ≠ 0 :=
    fun n => Nat.cast_ne_zero.mpr (Nat.pow_pos (by decide)).ne'
  rw [value_written, value_written, div_eq_div_iff (hpos _) (hpos _)] at h
  exact_mod_cast h

theorem spelled_mod_ten (h : d.fraction ≠ []) : d.spelled % 10 ≠ 0 := by
  obtain hnil | ⟨front, last, hlast, hzero⟩ := fraction_cases d
  · exact absurd hnil h
  · have hdigit := isDigit_fraction d last (by simp [hlast])
    obtain ⟨hlt, hchar⟩ := digitChar_digit hdigit
    rw [spelled, hlast, ← List.append_assoc, valueOf_concat]
    intro hmod
    have hnone : last.toNat - 48 = 0 := by omega
    rw [hnone] at hchar
    exact hzero hchar.symm

/-- Of two texts of one value, the longer fraction would end in a zero. -/
theorem length_fraction_le (h : d.value = d'.value) : d'.fraction.length ≤ d.fraction.length := by
  by_contra hlonger
  obtain ⟨k, hk⟩ := Nat.exists_eq_add_of_lt (Nat.lt_of_not_ge hlonger)
  have hne : d'.fraction ≠ [] := by
    intro hnil
    simp [hnil] at hk
  have hpow : Nat.pow 10 d'.fraction.length = Nat.pow 10 (k + 1) * Nat.pow 10 d.fraction.length := by
    rw [← pow_sum, hk, Nat.add_assoc, Nat.add_comm]
  have hmul := spelled_mul h
  rw [hpow, ← Nat.mul_assoc] at hmul
  have hshift : d.spelled * Nat.pow 10 (k + 1) = d'.spelled :=
    Nat.eq_of_mul_eq_mul_right (Nat.pow_pos (by decide)) hmul
  have hsucc : Nat.pow 10 (k + 1) = 10 * Nat.pow 10 k := Nat.pow_succ'
  apply spelled_mod_ten hne
  rw [← hshift, hsucc, Nat.mul_left_comm]
  exact Nat.mul_mod_right 10 _

/-- Decimals of one value are written alike. -/
theorem positional_congr (h : d.value = d'.value) : d.positional = d'.positional := by
  have hlength : d.fraction.length = d'.fraction.length :=
    Nat.le_antisymm (length_fraction_le h.symm) (length_fraction_le h)
  have hspelled : d.spelled = d'.spelled := by
    have hmul := spelled_mul h
    rw [hlength] at hmul
    exact Nat.eq_of_mul_eq_mul_right (Nat.pow_pos (by decide)) hmul
  rw [spelled, spelled, valueOf_append, valueOf_append, valueOf_numeral, valueOf_numeral,
    hlength] at hspelled
  have hbelow := valueOf_lt (isDigit_fraction d)
  have hbelow' := valueOf_lt (isDigit_fraction d')
  rw [hlength] at hbelow
  have hvalue : valueOf d.fraction = valueOf d'.fraction := by
    have hmod := congrArg (· % Nat.pow 10 d'.fraction.length) hspelled
    rwa [Nat.mul_add_mod_of_lt hbelow, Nat.mul_add_mod_of_lt hbelow'] at hmod
  have hwhole : d.whole = d'.whole := by
    rw [hvalue] at hspelled
    exact Nat.eq_of_mul_eq_mul_right (Nat.pow_pos (by decide)) (Nat.add_right_cancel hspelled)
  have hfraction : d.fraction = d'.fraction := by
    rw [← lastDigits_valueOf (isDigit_fraction d), hlength, hvalue,
      lastDigits_valueOf (isDigit_fraction d')]
  rw [positional_eq, positional_eq, hwhole, hfraction]

end Value

section Layout
variable {whole fraction : List Char}

def pointed (negative : Bool) (whole fraction : List Char) : List Char :=
  (if negative then ['-'] else []) ++ whole ++ if fraction = [] then [] else '.' :: fraction

/-- How many of the digits stand before the point: none or fewer if it is far to their left. -/
def point (d : Decimal) : Int := (numeral d.digits).length + d.exponent

def parts (d : Decimal) : List Char × List Char :=
  if d.point ≤ 0 then (['0'], List.replicate (-d.point).toNat '0' ++ numeral d.digits)
  else if d.exponent < 0 then
    ((numeral d.digits).take d.point.toNat, (numeral d.digits).drop d.point.toNat)
  else if d.digits = 0 then (['0'], [])
  else (numeral d.digits ++ List.replicate d.exponent.toNat '0', [])

def fixed (negative : Bool) (d : Decimal) : List Char :=
  pointed negative d.parts.1 d.parts.2

/-- A text with a point loses the zeros at its end, and then the point if that ends it. -/
def cut (text : List Char) : List Char :=
  if '.' ∈ text then Text.trimEnd (· == '.') (Text.trimEnd (· == '0') text) else text

structure Parts (d : Decimal) (whole fraction : List Char) : Prop where
  unpadded : Unpadded whole
  digits : ∀ x ∈ fraction, isDigit x
  length : fraction.length = d.places
  value : valueOf (whole ++ fraction) = d.digits * Nat.pow 10 d.exponent.toNat

theorem Parts.eq (h : Parts d whole fraction) :
    whole = numeral d.whole ∧
      fraction = lastDigits d.places (d.digits % Nat.pow 10 d.places) := by
  have hlt := valueOf_lt h.digits
  have hvalue := h.value
  rw [valueOf_append, h.length] at hvalue
  rw [h.length] at hlt
  have hpos : 0 < Nat.pow 10 d.places := Nat.pow_pos (by decide)
  have hwhole : d.whole = valueOf whole := by
    rw [Decimal.whole, ← hvalue, Nat.mul_comm, Nat.mul_add_div hpos, Nat.div_eq_of_lt hlt,
      Nat.add_zero]
  have hfraction : d.digits % Nat.pow 10 d.places = valueOf fraction := by
    rw [← num_mod, ← hvalue, Nat.mul_add_mod_of_lt hlt]
  rw [hwhole, hfraction, numeral_valueOf h.unpadded, ← h.length, lastDigits_valueOf h.digits]
  exact ⟨rfl, rfl⟩

theorem num_eq_digits (h : d.exponent ≤ 0) :
    d.digits * Nat.pow 10 d.exponent.toNat = d.digits := by
  rw [Int.toNat_eq_zero.mpr h]
  exact Nat.mul_one _

theorem places_eq_zero (h : 0 ≤ d.exponent) : d.places = 0 := by
  unfold places
  omega

theorem zero_unpadded : Unpadded ['0'] := ⟨rfl, by simp, fun _ => rfl⟩

/-- The point stands before the digits. -/
theorem parts_before (h : d.point ≤ 0) :
    Parts d ['0'] (List.replicate (-d.point).toNat '0' ++ numeral d.digits) where
  unpadded := zero_unpadded
  digits := by
    intro x hx
    obtain hzero | hdigit := List.mem_append.mp hx
    · rw [List.eq_of_mem_replicate hzero]
      rfl
    · exact (isDigits_numeral _).all x hdigit
  length := by
    rw [List.length_append, List.length_replicate, places]
    unfold point at h ⊢
    omega
  value := by
    have hexponent : d.exponent ≤ 0 := by
      unfold point at h
      omega
    have hzeros : ∀ x ∈ '0' :: List.replicate (-d.point).toNat '0', x = '0' := by simp
    rw [num_eq_digits hexponent, ← List.append_assoc, valueOf_append, List.singleton_append,
      valueOf_zeros hzeros, Nat.zero_mul, Nat.zero_add, valueOf_numeral]

/-- The point stands among the digits. -/
theorem parts_within (h : 0 < d.point) (hexponent : d.exponent < 0) :
    Parts d ((numeral d.digits).take d.point.toNat) ((numeral d.digits).drop d.point.toNat) where
  unpadded := (unpadded_numeral d.digits).take (by omega)
  digits x hx := (isDigits_numeral _).all x (List.mem_of_mem_drop hx)
  length := by
    rw [List.length_drop, places]
    unfold point at h ⊢
    omega
  value := by rw [List.take_append_drop, valueOf_numeral, num_eq_digits hexponent.le]

theorem parts_zero (h : 0 ≤ d.exponent) (hdigits : d.digits = 0) : Parts d ['0'] [] where
  unpadded := zero_unpadded
  digits := by simp
  length := (places_eq_zero h).symm
  value := by
    rw [hdigits, Nat.zero_mul]
    rfl

/-- The point stands behind the digits. -/
theorem parts_behind (h : 0 ≤ d.exponent) (hdigits : d.digits ≠ 0) :
    Parts d (numeral d.digits ++ List.replicate d.exponent.toNat '0') [] where
  unpadded := by
    refine (unpadded_numeral _).append ((valueOf_numeral _).trans_ne hdigits) fun x hx => ?_
    rw [List.eq_of_mem_replicate hx]
    rfl
  digits := by simp
  length := (places_eq_zero h).symm
  value := by
    rw [List.append_nil, valueOf_append, valueOf_numeral, List.length_replicate,
      valueOf_zeros (fun _ => List.eq_of_mem_replicate), Nat.add_zero]

theorem parts_spec (d : Decimal) : Parts d d.parts.1 d.parts.2 := by
  unfold parts
  split
  · rename_i hpoint
    exact parts_before hpoint
  · rename_i hpoint
    split
    · rename_i hexponent
      exact parts_within (Int.lt_of_not_ge hpoint) hexponent
    · rename_i hexponent
      split
      · rename_i hdigits
        exact parts_zero (Int.not_lt.mp hexponent) hdigits
      · rename_i hdigits
        exact parts_behind (Int.not_lt.mp hexponent) hdigits

theorem cut_pointed {front : List Char} (hfront : '.' ∉ front) (hfraction : '.' ∉ fraction) :
    cut (front ++ if fraction = [] then [] else '.' :: fraction) =
      front ++ if Text.trimEnd (· == '0') fraction = [] then []
        else '.' :: Text.trimEnd (· == '0') fraction := by
  by_cases hnil : fraction = []
  · simp [hnil, cut, hfront, Text.trimEnd]
  · have hzeros : Text.trimEnd (· == '0') (front ++ '.' :: fraction) =
        front ++ '.' :: Text.trimEnd (· == '0') fraction := Text.trimEnd_stop rfl front fraction
    rw [if_neg hnil, cut, if_pos (by simp), hzeros]
    obtain ⟨removed, hremoved, -⟩ := Text.trimEnd_append (· == '0') fraction
    rcases List.eq_nil_or_concat' (Text.trimEnd (· == '0') fraction) with
      hnone | ⟨more, last, hmore⟩
    · rw [hnone, if_pos rfl, List.append_nil, Text.trimEnd_concat rfl]
      exact Text.trimEnd_eq_self fun x hx => by simpa using fun heq : x = '.' => hfront (heq ▸ hx)
    · have hlast : last ≠ '.' := by
        rintro rfl
        apply hfraction
        rw [hremoved, hmore]
        simp
      rw [hmore, if_neg (by simp)]
      have hstop := Text.trimEnd_stop (p := (· == '.')) (by simpa using hlast) (front ++ '.' :: more) []
      simpa [Text.trimEnd] using hstop

/-- The text of a decimal is what is left of its digits. -/
theorem cut_fixed (negative : Bool) (d : Decimal) : cut (fixed negative d) = signed negative d := by
  have hspec := parts_spec d
  have hpoint : ∀ {s : List Char}, (∀ x ∈ s, isDigit x) → '.' ∉ s :=
    fun hs hmem => absurd (hs '.' hmem) (by decide)
  have hfront : '.' ∉ (if negative then ['-'] else []) ++ d.parts.1 := by
    cases negative <;> simpa using hpoint hspec.unpadded.isDigits.all
  obtain ⟨hwhole, hfraction⟩ := hspec.eq
  rw [fixed, pointed, cut_pointed hfront (hpoint hspec.digits), hwhole, hfraction, signed,
    positional_eq, List.append_assoc]
  rfl

end Layout

section Reading

def signed? (text : List Char) : Option (Bool × Decimal) :=
  let (negative, rest) := splitSign text
  (decimal? rest).map (negative, ·)

def layOut? (text : List Char) : Option (List Char) :=
  (signed? text).map fun (negative, d) => cut (fixed negative d)

theorem splitSign_signed (negative : Bool) (d : Decimal) :
    splitSign (signed negative d) = (negative, d.positional) := by
  cases negative with
  | true => rfl
  | false =>
    obtain ⟨c, tail, hform, hc, -⟩ := form_plain (form_positional d)
    rw [signed, hform]
    exact splitSign_digit hc tail

theorem signed?_signed (negative : Bool) (d : Decimal) :
    ∃ d', signed? (signed negative d) = some (negative, d') ∧ d'.value = d.value := by
  obtain ⟨d', hread, hvalue⟩ := decimal?_positional d
  exact ⟨d', by simp only [signed?, splitSign_signed, hread, Option.map_some], hvalue⟩

/-- The layout of a numeral has its sign and its value and is in plain form, and it is the text of the
finite number whose shortest decimal the numeral spells. -/
theorem numeral_laid_out {text : List Char} {negative : Bool} (h : signed? text = some (negative, d)) :
    ∃ plain d', layOut? text = some plain ∧ signed? plain = some (negative, d') ∧
      d'.value = d.value ∧ plain ∈ plainForm.matches' ∧
      ∀ size, (shortest size).value = d.value →
        (Number.finite negative size).text = String.ofList plain := by
  obtain ⟨d', hread, hvalue⟩ := signed?_signed negative d
  refine ⟨signed negative d, d', ?_, hread, hvalue, signed_plain negative d, fun size hsize => ?_⟩
  · rw [layOut?, h]
    exact congrArg some (cut_fixed negative d)
  · rw [Number.text_eq, signed, signed, positional_congr hsize]

theorem exponent_laid_out :
    signed? "-1.50e-7".toList = some (true, ⟨150, -9⟩) ∧
    ∃ d', signed? "-0.00000015".toList = some (true, d') ∧ d'.value = Decimal.value ⟨150, -9⟩ ∧
      "-0.00000015".toList ∈ plainForm.matches' ∧
      ∀ size, (shortest size).value = Decimal.value ⟨150, -9⟩ →
        (Number.finite true size).text = "-0.00000015" := by
  have hread : signed? "-1.50e-7".toList = some (true, ⟨150, -9⟩) := by decide
  have hlayout : layOut? "-1.50e-7".toList = some "-0.00000015".toList := by decide +kernel
  obtain ⟨plain, d', hplain, hrest⟩ := numeral_laid_out hread
  obtain rfl : "-0.00000015".toList = plain := Option.some.inj (hlayout.symm.trans hplain)
  exact ⟨hread, d', by simpa using hrest⟩

end Reading

end Decimal
end Reckon
