import Reckon.Text.Ascii
import Reckon.Text.Quoted
import Reckon.Token

/-! The piece of text that one token covers. Reading a piece never fails: a string without its
closing quote and a character that starts no token are pieces of their own. -/
namespace Reckon

inductive Piece where
  | proper (kind : Kind) (text : List Char)
  | openString (text : List Char)
  | stray (c : Char)
deriving DecidableEq, Repr

namespace Piece

def text : Piece → List Char
  | proper _ text => text
  | openString text => text
  | stray c => [c]

def token (p : Pos) : Piece → Token
  | proper kind text => ⟨kind, String.ofList text, p, none⟩
  | openString text => ⟨.unknown, String.ofList text, p, some "Unterminated string"⟩
  -- A stray character is named by the error alone.
  | stray c => ⟨.unknown, "", p, some ("Unexpected character " ++ Text.quoted c.toString)⟩

def wordTail (text : List Char) : List Char × List Char :=
  (text.takeWhile fun c => isLetter c || isDigit c, text.dropWhile fun c => isLetter c || isDigit c)

def numberTail (text : List Char) : List Char × List Char :=
  let whole := text.takeWhile isDigit
  match text.dropWhile isDigit with
  | '.' :: d :: rest =>
    -- A dot belongs to the number only before a digit.
    if isDigit d then (whole ++ '.' :: (d :: rest).takeWhile isDigit, (d :: rest).dropWhile isDigit)
    else (whole, '.' :: d :: rest)
  | rest => (whole, rest)

def closeString (opened rest : List Char) : Piece × List Char :=
  match rest.dropWhile (· != '"') with
  | [] => (openString (opened ++ rest), [])
  | quote :: after => (proper .string (opened ++ (rest.takeWhile (· != '"') ++ [quote])), after)

def read (c : Char) (rest : List Char) : Piece × List Char :=
  match Kind.punctuation.lookup c, Kind.joinable.lookup c with
  | some kind, _ => (proper kind [c], rest)
  | none, some (alone, joined) =>
    match rest with
    | '=' :: after => (proper joined [c, '='], after)
    | _ => (proper alone [c], rest)
  | none, none =>
    if c = '"' then closeString [c] rest
    else if isLetter c then
      let tail := wordTail rest
      (proper (Kind.ofWord (String.ofList (c :: tail.1))) (c :: tail.1), tail.2)
    else if isDigit c then
      let tail := numberTail rest
      (proper .number (c :: tail.1), tail.2)
    else (stray c, rest)

theorem wordTail_append (text : List Char) : (wordTail text).1 ++ (wordTail text).2 = text :=
  List.takeWhile_append_dropWhile

theorem numberTail_append (text : List Char) :
    (numberTail text).1 ++ (numberTail text).2 = text := by
  have split : text.takeWhile isDigit ++ text.dropWhile isDigit = text :=
    List.takeWhile_append_dropWhile
  unfold numberTail
  split
  · rename_i d rest h
    rw [h] at split
    split
    · simpa using split
    · exact split
  · exact split

theorem closeString_append (opened rest : List Char) :
    (closeString opened rest).1.text ++ (closeString opened rest).2 = opened ++ rest := by
  have split : rest.takeWhile (· != '"') ++ rest.dropWhile (· != '"') = rest :=
    List.takeWhile_append_dropWhile
  unfold closeString
  split
  · simp [text]
  · rename_i quote after h
    rw [h] at split
    simpa [text] using split

/-- Reading loses nothing. -/
theorem read_append (c : Char) (rest : List Char) :
    (read c rest).1.text ++ (read c rest).2 = c :: rest := by
  unfold read
  split
  · rfl
  · split <;> rfl
  · split
    · simpa using closeString_append [c] rest
    · split
      · simpa [text] using wordTail_append rest
      · split
        · simpa [text] using numberTail_append rest
        · rfl

theorem closeString_length (opened rest : List Char) :
    (closeString opened rest).2.length ≤ rest.length := by
  have h := congrArg List.length (List.takeWhile_append_dropWhile (p := (· != '"')) (l := rest))
  unfold closeString
  split
  · simp
  · rename_i quote after e
    rw [e] at h
    simp only [List.length_append, List.length_cons] at h
    simp only
    omega

/-- Every piece covers a character. -/
theorem read_length (c : Char) (rest : List Char) : (read c rest).2.length ≤ rest.length := by
  have word := congrArg List.length (wordTail_append rest)
  have number := congrArg List.length (numberTail_append rest)
  simp only [List.length_append] at word number
  unfold read
  split
  · exact Nat.le_refl _
  · split
    · simp
    · exact Nat.le_refl _
  · split
    · exact closeString_length _ _
    · split
      · simp only; omega
      · split
        · simp only; omega
        · exact Nat.le_refl _

end Piece
end Reckon
