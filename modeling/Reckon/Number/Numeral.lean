import Reckon.Number.Decimal
import Reckon.Text.Ascii
import Reckon.Text.DecimalDigit

/-! Numbers written as text: an optional sign, then digits with an optional point and an optional
exponent, or a name of infinity or of `nan`. Digits may be of any script and may be set apart by
single underscores; white space around the numeral is left out. -/
namespace Reckon.Numeral

/-- White space around a numeral. Of ASCII it is the space and tab to carriage return only. -/
def isPadding (c : Char) : Bool :=
  if c.toNat < 0x7f then c == ' ' || (0x9 ≤ c.toNat && c.toNat ≤ 0xd) else Text.isBlank c

def plainDigit (c : Char) : Char :=
  match Text.digitValue? c with
  | some value => Decimal.digitChar value
  | none => c

def joinDigits : (afterDigit : Bool) → List Char → Option (List Char)
  | _, [] => some []
  -- An underscore must stand between two digits.
  | true, '_' :: d :: rest => if isDigit d then (joinDigits true rest).map (d :: ·) else none
  | _, c :: rest =>
    if c = '_' then none else (joinDigits (isDigit c) rest).map (c :: ·)

def valueOf (digits : List Char) : Nat :=
  digits.foldl (fun n d => 10 * n + (d.toNat - 48)) 0

def splitSign : List Char → Bool × List Char
  | '-' :: rest => (true, rest)
  | '+' :: rest => (false, rest)
  | text => (false, text)

def exponent? : List Char → Option Int
  | [] => some 0
  | mark :: rest =>
    let (negative, digits) := splitSign rest
    if (mark = 'e' ∨ mark = 'E') ∧ digits ≠ [] ∧ digits.all isDigit then
      some (if negative then -valueOf digits else valueOf digits)
    else none

def splitFraction : List Char → List Char × List Char
  | '.' :: rest => (rest.takeWhile isDigit, rest.dropWhile isDigit)
  | text => ([], text)

def decimal? (text : List Char) : Option Decimal :=
  let whole := text.takeWhile isDigit
  let (fraction, rest) := splitFraction (text.dropWhile isDigit)
  if whole ++ fraction = [] then none
  else (exponent? rest).map fun e => ⟨valueOf (whole ++ fraction), e - fraction.length⟩

def unsigned? (negative : Bool) (text : List Char) : Option Number :=
  let name := String.ofList (text.map Char.toLower)
  if name = "inf" ∨ name = "infinity" then some (.infinite negative)
  else if name = "nan" then some .nan
  else (decimal? text).map (Decimal.toNumber negative)

def number? (s : String) : Option Number :=
  let text := (Text.trimBoth isPadding s.toList).map plainDigit
  (joinDigits false text).bind fun text =>
    let (negative, rest) := splitSign text
    unsigned? negative rest

end Reckon.Numeral
