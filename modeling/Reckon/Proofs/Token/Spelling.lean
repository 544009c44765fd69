import Reckon.Proofs.Token.Layout

/-! What tokens are spelled like. A token read from a text, unless it is unknown or the end, has the
form of its kind, so its lexeme decides its kind. -/
namespace Reckon
open Lexer (Form)

def Token.Spelled (t : Token) : Prop := Form t.lexeme.toList t.kind

/-- Of two tokens with one lexeme the kinds are the same. -/
theorem Token.Spelled.kind_eq {s t : Token} (hs : s.Spelled) (ht : t.Spelled)
    (h : s.lexeme = t.lexeme) : s.kind = t.kind := by
  have hkind := hs.kindOf_eq
  rw [h, ht.kindOf_eq] at hkind
  exact hkind.symm

theorem Piece.token_spelled (c : Char) (rest : List Char) (p : Pos)
    (h : ((Piece.read c rest).1.token p).kind ≠ .unknown) :
    ((Piece.read c rest).1.token p).Spelled := by
  have hlongest := Lexer.read_longest c rest
  generalize (Piece.read c rest).1 = piece at h hlongest
  cases piece with
  | proper kind text =>
    have hform : Form text kind := hlongest.1
    rwa [Token.Spelled, token, String.toList_ofList]
  | openString text => exact absurd rfl h
  | stray x => exact absurd rfl h

namespace Lexer

theorem tokens_spelled (p : Pos) (text : List Char) :
    ∀ t ∈ tokens p text, t.kind ≠ .unknown → t.kind ≠ .eof → t.Spelled := by
  induction p, text using tokens.induct with
  | case1 p text h =>
    rw [tokens_last h]
    intro t ht _ heof
    obtain rfl := List.mem_singleton.mp ht
    exact absurd rfl heof
  | case2 p text start c rest h found hshorter ih =>
    rw [tokens_piece h]
    intro t ht hknown heof
    cases ht with
    | head => exact Piece.token_spelled c rest start hknown
    | tail _ ht => exact ih t ht hknown heof

end Lexer
end Reckon
