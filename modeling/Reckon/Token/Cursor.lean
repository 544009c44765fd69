import Reckon.Token.Lexer

/-! A place in a text from which characters and tokens are taken. A negative position counts back
from the end of the text: reading from there runs to the end, then through the whole text, but
nothing can be looked at in advance before position 0 is reached. -/
namespace Reckon

structure Cursor where
  source : List Char
  position : Int
  pos : Pos
deriving DecidableEq, Repr

namespace Cursor

inductive Refusal where
  | pastEnd (position line : Int)
  | beforeStart (position : Int)
deriving DecidableEq, Repr

def leastIndex : Int := -0x8000000000000000

def Refusal.message : Refusal → String
  | pastEnd position line =>
    "Attempted to read past end of source at position=<" ++ toString position ++ ">, line=<" ++
      toString line ++ ">"
  | beforeStart position =>
    if position < leastIndex then "cannot fit 'int' into an index-sized integer"
    else "string index out of range"

def atEnd (c : Cursor) : Bool :=
  c.source.length ≤ c.position

def peek (c : Cursor) (offset : Int) : Option Char :=
  if c.position + offset < 0 then none else c.source[(c.position + offset).toNat]?

/-- What is still to be taken: the characters at negative positions, then those from 0 on. There is
nothing to say of a position before the first character. -/
def ahead? (c : Cursor) : Option (List Char × List Char) :=
  if c.position < -c.source.length then none
  else if c.position < 0 then some (c.source.drop (c.source.length + c.position).toNat, c.source)
  else some ([], c.source.drop c.position.toNat)

def visible (c : Cursor) : List Char :=
  if c.position < 0 then [] else c.source.drop c.position.toNat

def pass (c : Cursor) (text : List Char) : Cursor :=
  ⟨c.source, c.position + text.length, c.pos.past text⟩

def next (c : Cursor) : Except Refusal Char × Cursor :=
  match c.ahead? with
  | none => (.error (.beforeStart c.position), c)
  | some (hidden, visible) =>
    match hidden ++ visible with
    | [] => (.error (.pastEnd c.position c.pos.line), c)
    | x :: _ => (.ok x, c.pass [x])

def skipSpaces (c : Cursor) : Cursor :=
  c.pass (c.visible.takeWhile Lexer.isSpace)

def firstLine (text : List Char) : List Char :=
  text.takeWhile (· != '\n') ++ (text.dropWhile (· != '\n')).take 1

def skipLine (c : Cursor) : Except Refusal Unit × Cursor :=
  match c.ahead? with
  | none => (.error (.beforeStart c.position), c)
  | some (hidden, visible) => (.ok (), c.pass (firstLine (hidden ++ visible)))

def word (c : Cursor) (first : String) (p : Pos) : Token × Cursor :=
  let tail := (Piece.wordTail c.visible).1
  let lexeme := first ++ String.ofList tail
  (⟨Kind.ofWord lexeme, lexeme, p, none⟩, c.pass tail)

def number (c : Cursor) (first : String) (p : Pos) : Token × Cursor :=
  let tail := (Piece.numberTail c.visible).1
  (⟨.number, first ++ String.ofList tail, p, none⟩, c.pass tail)

/-- Takes a string whose opening quote stood at `p`. Hidden characters are taken unseen. -/
def string (c : Cursor) (p : Pos) : Except Refusal Token × Cursor :=
  match c.ahead? with
  | none => (.error (.beforeStart c.position), c)
  | some (hidden, visible) =>
    let piece := (Piece.closeString ('"' :: hidden) visible).1
    (.ok (piece.token p), c.pass (piece.text.drop 1))

def readHidden (x : Char) (hidden visible : List Char) : Piece × List Char × List Char :=
  if hidden = [] then
    let found := Piece.read x visible
    (found.1, [], found.2)
  else if x = '"' then
    let found := Piece.closeString (x :: hidden) visible
    (found.1, [], found.2)
  else ((Piece.read x []).1, hidden, visible)

theorem readHidden_length (x : Char) (hidden visible : List Char) :
    (readHidden x hidden visible).2.1.length ≤ hidden.length := by
  unfold readHidden
  split
  · simp
  · split <;> simp

def nextToken (c : Cursor) : Except Refusal Token × Cursor :=
  match c.ahead? with
  | none => (.error (.beforeStart c.position), c)
  | some ([], visible) =>
    let gap := Lexer.splitGap false visible
    let start := c.pass gap.1
    match gap.2 with
    | [] => (.ok (Token.eofAt start.pos), start)
    | x :: rest =>
      let piece := (Piece.read x rest).1
      (.ok (piece.token start.pos), start.pass piece.text)
  | some (x :: hidden, visible) =>
    let piece := (readHidden x hidden visible).1
    (.ok (piece.token c.pos), c.pass piece.text)

def tokensOf (p : Pos) (hidden visible : List Char) : List Token :=
  match hidden with
  | [] => Lexer.tokens p visible
  | x :: more =>
    let found := readHidden x more visible
    found.1.token p :: tokensOf (p.past found.1.text) found.2.1 found.2.2
termination_by hidden.length
decreasing_by exact Nat.lt_succ_of_le (readHidden_length x more visible)

def tokens (c : Cursor) : Except Refusal (List Token) × Cursor :=
  match c.ahead? with
  | none => (.error (.beforeStart c.position), c)
  | some (hidden, visible) => (.ok (tokensOf c.pos hidden visible), c.pass (hidden ++ visible))

end Cursor
end Reckon
