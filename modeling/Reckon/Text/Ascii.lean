/-! The letters and digits of ASCII, of which words and numbers are made. -/
namespace Reckon

def isLetter (c : Char) : Bool :=
  ('a' ≤ c && c ≤ 'z') || ('A' ≤ c && c ≤ 'Z')

def isDigit (c : Char) : Bool :=
  '0' ≤ c && c ≤ '9'

def isOne (p : Char → Bool) (s : String) : Bool :=
  match s.toList with
  | [c] => p c
  | _ => false

end Reckon
