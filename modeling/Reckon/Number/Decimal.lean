import Reckon.Number
import Reckon.Text.Blank

/-! Decimal text of numbers: the fewest digits that read back as the number, written without an
exponent. -/
namespace Reckon

/-- The number `digits * 10 ^ exponent`. -/
structure Decimal where
  digits : Nat
  exponent : Int
deriving DecidableEq, Repr

namespace Decimal

def toMagnitude? (d : Decimal) : Option Magnitude :=
  if d.digits = 0 then some .zero
  -- From `10 ^ 310` on every size is too large, and below `10 ^ (-330)` all are nearest to zero, so that no
  -- long power is needed.
  else if 309 < d.exponent then none
  else if d.exponent + d.digits.log2 < -331 then some .zero
  else Magnitude.ofRatio? (d.digits * Nat.pow 10 d.exponent.toNat * unitsPerOne)
    (Nat.pow 10 (-d.exponent).toNat)

def toNumber (negative : Bool) (d : Decimal) : Number :=
  match d.toMagnitude? with
  | some size => .finite negative size
  | none => .infinite negative

def onGrid? (x : Magnitude) (exponent : Int) : Option Decimal :=
  let num := x.units * Nat.pow 10 (-exponent).toNat
  let den := Nat.pow 10 exponent.toNat * unitsPerOne
  let near := divHalfEven num den
  let far := 2 * (num / den) + 1 - near
  [Decimal.mk near exponent, ⟨far, exponent⟩].find? fun d => d.toMagnitude? = some x

def shortestFrom (x : Magnitude) : (k : Nat) → Decimal
  | 0 => ⟨x.units * Nat.pow 5 oneBits, -oneBits⟩
  | k + 1 => (onGrid? x (k + 1 - oneBits)).getD (shortestFrom x k)

/-- The decimal of fewest digits that reads back as the size. No coarser grid than the first has a
point near it except zero. -/
def shortest (x : Magnitude) : Decimal :=
  shortestFrom x (oneBits + ((x.units.log2 + 1 - oneBits) / 3 + 1))

def digitChar (n : Nat) : Char := Char.ofNat (n + 48)

def numeral (n : Nat) : List Char :=
  if n < 10 then [digitChar n] else numeral (n / 10) ++ [digitChar (n % 10)]

def lastDigits : (width : Nat) → Nat → List Char
  | 0, _ => []
  | width + 1, n => lastDigits width (n / 10) ++ [digitChar (n % 10)]

def positional (d : Decimal) : List Char :=
  let places := (-d.exponent).toNat
  let whole := d.digits * Nat.pow 10 d.exponent.toNat / Nat.pow 10 places
  let fraction := Text.trimEnd (· == '0') (lastDigits places (d.digits % Nat.pow 10 places))
  numeral whole ++ if fraction = [] then [] else '.' :: fraction

end Decimal

def Number.text : Number → String
  | nan => "NaN"
  | infinite false => "inf"
  | infinite true => "-inf"
  | finite negative size =>
    String.ofList ((if negative then ['-'] else []) ++ (Decimal.shortest size).positional)

end Reckon
