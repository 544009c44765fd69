import Reckon.Number.Numeral
import Reckon.Proofs.Token.Form

/-! Reading plain numerals: digits, or digits on both sides of a point. Of all that numerals may hold
besides, such a text has nothing, so it is read as the decimal that its digits spell. -/
namespace Reckon

namespace Lexer
variable {text digits : List Char}

theorem IsDigits.ne_nil (h : IsDigits digits) : digits ≠ [] := by
  rintro rfl
  exact h

theorem IsDigits.all (h : IsDigits digits) : ∀ x ∈ digits, isDigit x := by
  cases digits with
  | nil => exact absurd h id
  | cons c tail =>
    intro x hx
    cases hx with
    | head => exact h.1
    | tail _ hx => exact h.2 x hx

theorem isDigits_of_all (hne : digits ≠ []) (h : ∀ x ∈ digits, isDigit x) : IsDigits digits := by
  cases digits with
  | nil => exact hne rfl
  | cons c tail => exact ⟨h c (by simp), fun x hx => h x (List.mem_cons_of_mem c hx)⟩

theorem Form.number_cases (h : Form text .number) :
    IsDigits text ∨ ∃ digits more, IsDigits digits ∧ IsDigits more ∧
      text = digits ++ '.' :: more := by
  generalize hkind : Kind.number = kind at h
  cases h with
  | mark hmark =>
    have hall : ∀ x ∈ marks, x.2 ≠ .number := by decide
    exact absurd hkind.symm (hall _ hmark)
  | string _ => cases hkind
  | reserved _ hmem =>
    have hall : ∀ x ∈ Kind.reserved, x.2 ≠ .number := by decide
    exact absurd hkind.symm (hall _ hmem)
  | identifier _ _ => cases hkind
  | whole hdigits => exact .inl hdigits
  | fraction hdigits hmore => exact .inr ⟨_, _, hdigits, hmore, rfl⟩

end Lexer

open Lexer (IsDigits Form)

/-- What holds of the characters with the code points of the digits holds of every digit. -/
@[elab_as_elim]
theorem of_isDigit {P : Char → Prop} {c : Char} (h : isDigit c)
    (hall : ∀ n, n < 58 → 48 ≤ n → P (Char.ofNat n)) : P c := by
  simp only [isDigit, Bool.and_eq_true, decide_eq_true_eq, Char.le_def,
    UInt32.le_iff_toNat_le] at h
  have hlow : 48 ≤ c.toNat := h.1
  have hhigh : c.toNat ≤ 57 := h.2
  have hcode := hall c.toNat (by omega) hlow
  rwa [Char.ofNat_toNat] at hcode

theorem isDigit_digitChar : ∀ n, n < 10 → isDigit (Decimal.digitChar n) := by decide

theorem toNat_digitChar : ∀ n, n < 10 → (Decimal.digitChar n).toNat - 48 = n := by decide

namespace Text
variable {p : Char → Bool} {cs : List Char}

theorem dropWhile_eq_self (h : ∀ x ∈ cs, p x = false) : cs.dropWhile p = cs := by
  cases cs with
  | nil => rfl
  | cons c cs => simp [h c]

theorem trimEnd_eq_self (h : ∀ x ∈ cs, p x = false) : trimEnd p cs = cs := by
  rw [trimEnd, dropWhile_eq_self, List.reverse_reverse]
  intro x hx
  exact h x (List.mem_reverse.mp hx)

theorem trimBoth_eq_self (h : ∀ x ∈ cs, p x = false) : trimBoth p cs = cs := by
  rw [trimBoth, dropWhile_eq_self h, trimEnd_eq_self h]

end Text

namespace Numeral
variable {text digits more : List Char}

def Plain (c : Char) : Prop := plainDigit c = c ∧ isPadding c = false ∧ c ≠ '_'

theorem plain_point : Plain '.' := by
  unfold Plain
  decide

theorem plain_of_isDigit {c : Char} (h : isDigit c) : Plain c := by
  unfold Plain
  exact of_isDigit h (by decide)

theorem joinDigits_plain (afterDigit : Bool) (h : ∀ x ∈ text, Plain x) :
    joinDigits afterDigit text = some text := by
  induction text generalizing afterDigit with
  | nil => rfl
  | cons c text ih =>
    have hc : c ≠ '_' := (h c (by simp)).2.2
    have htail := ih (isDigit c) fun x hx => h x (List.mem_cons_of_mem c hx)
    cases afterDigit <;> simp [joinDigits, hc, htail]

theorem unsigned?_digit {c : Char} (hc : isDigit c) (negative : Bool) (tail : List Char) :
    unsigned? negative (c :: tail) = (decimal? (c :: tail)).map (Decimal.toNumber negative) := by
  obtain ⟨hi, hn⟩ : c.toLower ≠ 'i' ∧ c.toLower ≠ 'n' := of_isDigit hc (by decide)
  have hname : ∀ x s, c.toLower ≠ x →
      String.ofList ((c :: tail).map Char.toLower) ≠ String.ofList (x :: s) := by
    intro x s hx heq
    have hhead := String.ofList_injective heq
    exact hx (List.cons.inj hhead).1
  have hinf := hname 'i' ['n', 'f'] hi
  have hinfinity := hname 'i' ['n', 'f', 'i', 'n', 'i', 't', 'y'] hi
  have hnan := hname 'n' ['a', 'n'] hn
  unfold unsigned?
  simp only
  rw [if_neg (not_or.mpr ⟨hinf, hinfinity⟩), if_neg hnan]

theorem splitSign_digit {c : Char} (hc : isDigit c) (tail : List Char) :
    splitSign (c :: tail) = (false, c :: tail) := by
  obtain ⟨hminus, hplus⟩ : c ≠ '-' ∧ c ≠ '+' := of_isDigit hc (by decide)
  simp [splitSign, hminus, hplus]

/-- Signs, white space, digits of other scripts, underscores and names are all absent. -/
theorem number?_plain {c : Char} {tail : List Char} (hc : isDigit c) (h : ∀ x ∈ tail, Plain x) :
    number? (String.ofList (c :: tail)) =
      (decimal? (c :: tail)).map (Decimal.toNumber false) := by
  have hplain : ∀ x ∈ c :: tail, Plain x := by
    intro x hx
    cases hx with
    | head => exact plain_of_isDigit hc
    | tail _ hx => exact h x hx
  have htrim : Text.trimBoth isPadding (c :: tail) = c :: tail :=
    Text.trimBoth_eq_self fun x hx => (hplain x hx).2.1
  have hmap : (c :: tail).map plainDigit = c :: tail :=
    (List.map_congr_left fun x hx => (hplain x hx).1).trans (List.map_id' _)
  rw [number?, String.toList_ofList, htrim, hmap]
  simp only [joinDigits_plain false hplain, Option.bind_some, splitSign_digit hc]
  exact unsigned?_digit hc false tail

theorem decimal?_whole (h : IsDigits digits) : decimal? digits = some ⟨valueOf digits, 0⟩ := by
  have htake : digits.takeWhile isDigit = digits := List.takeWhile_eq_self_iff.mpr h.all
  have hdrop : digits.dropWhile isDigit = [] := List.dropWhile_eq_nil_iff.mpr h.all
  simp [decimal?, htake, hdrop, splitFraction, exponent?, h.ne_nil]

theorem decimal?_fraction (hdigits : IsDigits digits) (hmore : IsDigits more) :
    decimal? (digits ++ '.' :: more) = some ⟨valueOf (digits ++ more), -more.length⟩ := by
  have hpoint : isDigit '.' = false := by decide
  have htake : (digits ++ '.' :: more).takeWhile isDigit = digits := by
    rw [List.takeWhile_append_of_pos hdigits.all]
    simp [hpoint]
  have hdrop : (digits ++ '.' :: more).dropWhile isDigit = '.' :: more := by
    rw [List.dropWhile_append_of_pos hdigits.all]
    simp [hpoint]
  have htake' : more.takeWhile isDigit = more := List.takeWhile_eq_self_iff.mpr hmore.all
  have hdrop' : more.dropWhile isDigit = [] := List.dropWhile_eq_nil_iff.mpr hmore.all
  simp [decimal?, htake, hdrop, splitFraction, htake', hdrop', exponent?, hdigits.ne_nil]

theorem form_plain (h : Form text .number) :
    ∃ c tail, text = c :: tail ∧ isDigit c ∧ ∀ x ∈ tail, Plain x := by
  obtain hdigits | ⟨digits, more, hdigits, hmore, rfl⟩ := h.number_cases
  · cases text with
    | nil => exact absurd hdigits id
    | cons c tail => exact ⟨c, tail, rfl, hdigits.1, fun x hx => plain_of_isDigit (hdigits.2 x hx)⟩
  · cases digits with
    | nil => exact absurd hdigits id
    | cons c tail =>
      refine ⟨c, tail ++ '.' :: more, rfl, hdigits.1, ?_⟩
      simp only [List.mem_append, List.mem_cons]
      rintro x (hx | rfl | hx)
      · exact plain_of_isDigit (hdigits.2 x hx)
      · exact plain_point
      · exact plain_of_isDigit (hmore.all x hx)

theorem number?_form (h : Form text .number) :
    number? (String.ofList text) = (decimal? text).map (Decimal.toNumber false) := by
  obtain ⟨c, tail, rfl, hc, htail⟩ := form_plain h
  exact number?_plain hc htail

/-- Whatever a text holds as a number token can be read as a number. -/
theorem exists_number?_form (h : Form text .number) : ∃ x, number? (String.ofList text) = some x := by
  rw [number?_form h]
  obtain hdigits | ⟨digits, more, hdigits, hmore, rfl⟩ := h.number_cases
  · rw [decimal?_whole hdigits]
    exact ⟨_, rfl⟩
  · rw [decimal?_fraction hdigits hmore]
    exact ⟨_, rfl⟩

end Numeral
end Reckon
