import Reckon.Number.Magnitude

/-! Numbers of double precision and their arithmetic. Each operation finds the exact result and
rounds it once; none fails. -/
namespace Reckon

inductive Number where
  | nan
  | infinite (negative : Bool)
  | finite (negative : Bool) (size : Magnitude)
deriving DecidableEq

namespace Number

def ofRatio (negative : Bool) (num den : Nat) : Number :=
  match Magnitude.ofRatio? num den with
  | some size => finite negative size
  | none => infinite negative

def signedUnits (negative : Bool) (size : Magnitude) : Int :=
  if negative then -size.units else size.units

def neg : Number → Number
  | nan => nan
  | infinite negative => infinite !negative
  | finite negative size => finite (!negative) size

def add : Number → Number → Number
  | nan, _ => nan
  | _, nan => nan
  | infinite a, infinite b => if a = b then infinite a else nan
  | infinite a, finite _ _ => infinite a
  | finite _ _, infinite b => infinite b
  | finite a x, finite b y =>
    let total := signedUnits a x + signedUnits b y
    -- A zero sum is negative only if both terms are.
    ofRatio (if total = 0 then a && b else total < 0) total.natAbs 1

def sub (x y : Number) : Number := x.add y.neg

def mul : Number → Number → Number
  | nan, _ => nan
  | _, nan => nan
  | infinite a, infinite b => infinite (a != b)
  | infinite a, finite b y => if y.units = 0 then nan else infinite (a != b)
  | finite a x, infinite b => if x.units = 0 then nan else infinite (a != b)
  | finite a x, finite b y => ofRatio (a != b) (x.units * y.units) unitsPerOne

def div : Number → Number → Number
  | nan, _ => nan
  | _, nan => nan
  | infinite _, infinite _ => nan
  | infinite a, finite b _ => infinite (a != b)
  | finite a _, infinite b => finite (a != b) .zero
  | finite a x, finite b y =>
    if y.units = 0 then
      if x.units = 0 then nan else infinite (a != b)
    else ofRatio (a != b) (x.units * unitsPerOne) y.units

def signBit : Nat := 0x8000000000000000

def ofBits (bits : Nat) : Number :=
  let negative := bits / signBit % 2 == 1
  let exponent := bits / Magnitude.fractionEnd % 2048
  let fraction := bits % Magnitude.fractionEnd
  if h : exponent < 2047 then
    finite negative (.ofFields exponent fraction h (Nat.mod_lt _ (by decide)))
  else if fraction = 0 then infinite negative
  else nan

def toBits : Number → Nat
  | nan => 0x7ff8000000000000
  | infinite negative => negative.toNat * signBit + 2047 * Magnitude.fractionEnd
  | finite negative size => negative.toNat * signBit + size.fields

end Number
end Reckon
