import Reckon.Token.Kind

/-! Places in a text and the tokens found there. -/
namespace Reckon

/-- A line and a column, both counted from 1; a synthesized token has line 0. -/
structure Pos where
  line : Int
  col : Int
deriving DecidableEq, Repr

namespace Pos

def start : Pos := ⟨1, 1⟩

def after (p : Pos) (c : Char) : Pos :=
  if c = '\n' then ⟨p.line + 1, 1⟩ else ⟨p.line, p.col + 1⟩

def past (p : Pos) (text : List Char) : Pos :=
  text.foldl after p

@[simp] theorem past_nil (p : Pos) : p.past [] = p := rfl

@[simp] theorem past_cons (p : Pos) (c : Char) (text : List Char) :
    p.past (c :: text) = (p.after c).past text := rfl

@[simp] theorem past_append (p : Pos) (s t : List Char) :
    p.past (s ++ t) = (p.past s).past t :=
  List.foldl_append

end Pos

/-- A token: `error` describes what is wrong with a token of kind `unknown`. -/
structure Token where
  kind : Kind
  lexeme : String
  pos : Pos
  error : Option String
deriving DecidableEq, Repr

namespace Token

-- Place and error are not compared.
def alike (s t : Token) : Bool :=
  s.kind == t.kind && s.lexeme == t.lexeme

def eofAt (p : Pos) : Token := ⟨.eof, "", p, none⟩

def render (t : Token) : String :=
  "Token(" ++ t.kind.name ++ ", " ++ t.lexeme ++ ")"

end Token
end Reckon
