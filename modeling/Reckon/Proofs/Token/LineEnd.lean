import Mathlib.Data.List.Forall2
import Reckon.Proofs.Program.Relabel
import Reckon.Proofs.Token.Newline

/-! Line ends of one character and of two. A carriage return before a newline is a separator, or goes
with the newline into a comment or a string, and the newline puts the place at the start of a line in
any case. So the tokens are the same, with the same places; only texts of strings have other line
ends. -/
namespace Reckon

namespace Text

def crlf (text : List Char) : List Char :=
  text.flatMap fun c => if c = '\n' then ['\r', '\n'] else [c]

def withCrlf (s : String) : String := String.ofList (crlf s.toList)

variable {c : Char} {text : List Char} {q : Char → Bool}

@[simp] theorem crlf_nil : crlf [] = [] := rfl

@[simp] theorem crlf_newline (text : List Char) : crlf ('\n' :: text) = '\r' :: '\n' :: crlf text := rfl

theorem crlf_cons (hc : c ≠ '\n') (text : List Char) : crlf (c :: text) = c :: crlf text := by
  simp [crlf, hc]

@[simp] theorem crlf_append (s t : List Char) : crlf (s ++ t) = crlf s ++ crlf t := List.flatMap_append

/-- A text is taken apart up to its next newline. -/
@[elab_as_elim]
theorem newline_induction {motive : List Char → Prop} (nil : motive [])
    (newline : ∀ text, motive text → motive ('\n' :: text))
    (other : ∀ c text, c ≠ '\n' → motive text → motive (c :: text)) (text : List Char) :
    motive text := by
  induction text with
  | nil => exact nil
  | cons c text ih =>
    by_cases hc : c = '\n'
    · subst hc
      exact newline text ih
    · exact other c text hc ih

theorem crlf_of_free (h : '\n' ∉ text) : crlf text = text := by
  induction text with
  | nil => rfl
  | cons c text ih =>
    rw [List.mem_cons, not_or] at h
    rw [crlf_cons (Ne.symm h.1), ih h.2]

/-- Classes that hold both characters of a line end, or neither, have the same runs. -/
theorem takeWhile_crlf (hq : q '\r' = q '\n') (text : List Char) :
    (crlf text).takeWhile q = crlf (text.takeWhile q) := by
  induction text using newline_induction with
  | nil => rfl
  | newline text ih => cases hnewline : q '\n' <;> simp [hq, hnewline, ih]
  | other c text hc ih =>
    rw [crlf_cons hc]
    cases hclass : q c <;> simp [hclass, ih, crlf_cons hc]

theorem dropWhile_crlf (hq : q '\r' = q '\n') (text : List Char) :
    (crlf text).dropWhile q = crlf (text.dropWhile q) := by
  induction text using newline_induction with
  | nil => rfl
  | newline text ih => cases hnewline : q '\n' <;> simp [hq, hnewline, ih]
  | other c text hc ih =>
    rw [crlf_cons hc]
    cases hclass : q c <;> simp [hclass, ih, crlf_cons hc]

/-- Runs of classes that hold no part of a line end do not change. -/
theorem run_crlf (hreturn : q '\r' = false) (hnewline : q '\n' = false) (text : List Char) :
    (crlf text).takeWhile q = text.takeWhile q := by
  rw [takeWhile_crlf (hreturn.trans hnewline.symm)]
  refine crlf_of_free fun hmem => ?_
  have hclass := List.mem_takeWhile_imp hmem
  rw [hnewline] at hclass
  cases hclass

end Text

open Text (crlf)

theorem Pos.past_crlf (p : Pos) (text : List Char) : p.past (crlf text) = p.past text := by
  induction text using Text.newline_induction generalizing p with
  | nil => rfl
  | newline text ih =>
    have hafter : (p.after '\r').after '\n' = p.after '\n' := rfl
    rw [Text.crlf_newline, past_cons, past_cons, hafter, ih, past_cons]
  | other c text hc ih => rw [Text.crlf_cons hc, past_cons, ih, past_cons]

def Relabel.crlf : Relabel := ⟨Text.withCrlf, id, id⟩

namespace Lexer
variable {c : Char} {tail : List Char} {kind : Kind}

/-- Of the forms, only those of strings hold a newline. -/
theorem Form.newline_free (h : Form (c :: tail) kind) (hquote : c ≠ '"') : '\n' ∉ c :: tail := by
  have hhead : '\n' ≠ c := by
    rintro rfl
    obtain ⟨y, hy, hmark, -⟩ | ⟨y, hy, hmark, -⟩ | ⟨hmark, -⟩ | ⟨hletter, -⟩ | ⟨hdigit, -⟩ :=
      h.tail_cases
    · exact absurd hmark ((by decide : ∀ y ∈ Kind.punctuation, y.1 ≠ '\n') y hy)
    · exact absurd hmark ((by decide : ∀ y ∈ Kind.joinable, y.1 ≠ '\n') y hy)
    · exact absurd hmark (by decide)
    · exact absurd hletter (by decide)
    · exact absurd hdigit (by decide)
  intro hmem
  obtain hmem | hmem := List.mem_cons.mp hmem
  · exact hhead hmem
  · exact h.not_breaks hquote '\n' hmem breaks_newline

theorem Form.crlf_eq (h : Form (c :: tail) kind) (hquote : c ≠ '"') :
    crlf (c :: tail) = c :: tail :=
  Text.crlf_of_free (h.newline_free hquote)

theorem Form.kind_of_quote (h : Form ('"' :: tail) kind) : kind = .string := by
  rw [← h.kindOf_eq]
  simp [kindOf, lookup_marks_eq_none (.inr (.inr rfl))]

end Lexer

namespace Piece
open Lexer

def crlf : Piece → Piece
  | proper kind text => proper kind (Text.crlf text)
  | openString text => openString (Text.crlf text)
  | stray c => stray c

variable {c : Char}

theorem closeString_crlf (opened rest : List Char) :
    closeString (Text.crlf opened) (Text.crlf rest) =
      ((closeString opened rest).1.crlf, Text.crlf (closeString opened rest).2) := by
  unfold closeString
  rw [Text.dropWhile_crlf (by decide), Text.takeWhile_crlf (by decide)]
  cases h : rest.dropWhile (· != '"') with
  | nil => simp [crlf]
  | cons quote after =>
    have hquote : quote = '"' := by
      have hhead := List.head?_dropWhile_not (· != '"') rest
      simpa [h] using hhead
    subst hquote
    have hafter : Text.crlf ('"' :: after) = '"' :: Text.crlf after := rfl
    have hclosing : Text.crlf ['"'] = ['"'] := rfl
    simp [crlf, hafter, hclosing]

theorem wordTail_crlf (text : List Char) :
    wordTail (Text.crlf text) = ((wordTail text).1, Text.crlf (wordTail text).2) := by
  rw [wordTail, Text.run_crlf (by decide) (by decide), Text.dropWhile_crlf (by decide)]
  rfl

theorem numberTail_crlf (text : List Char) :
    numberTail (Text.crlf text) = ((numberTail text).1, Text.crlf (numberTail text).2) := by
  unfold numberTail
  rw [Text.run_crlf (by decide) (by decide), Text.dropWhile_crlf (by decide)]
  generalize text.takeWhile isDigit = whole
  generalize text.dropWhile isDigit = after
  cases after using Text.newline_induction with
  | nil => rfl
  | newline after => rfl
  | other x after hx =>
    by_cases hpoint : x = '.'
    · subst hpoint
      cases after using Text.newline_induction with
      | nil => rfl
      | newline after => rfl
      | other d after hd =>
        have htake := Text.run_crlf (q := isDigit) (by decide) (by decide) (d :: after)
        have hdrop := Text.dropWhile_crlf (q := isDigit) (by decide) (d :: after)
        rw [Text.crlf_cons hd] at htake hdrop
        rw [Text.crlf_cons hx, Text.crlf_cons hd]
        cases hdigit : isDigit d with
        | false => simp [hdigit, Text.crlf_cons hx, Text.crlf_cons hd]
        | true => simp only [hdigit, if_true, htake, hdrop]
    · simp [Text.crlf_cons hx, hpoint]

theorem read_crlf (hc : c ≠ '\n') (rest : List Char) :
    read c (Text.crlf rest) = ((read c rest).1.crlf, Text.crlf (read c rest).2) := by
  have hone : Text.crlf [c] = [c] := Text.crlf_cons hc []
  unfold read
  split
  · simp [crlf, hone]
  · cases rest using Text.newline_induction with
    | nil => simp [crlf, hone]
    | newline rest => simp [crlf, hone]
    | other x rest hx =>
      by_cases hequal : x = '='
      · subst hequal
        have hjoined : Text.crlf [c, '='] = [c, '='] := Text.crlf_cons hc ['=']
        simp [Text.crlf_cons hx, crlf, hjoined]
      · simp [Text.crlf_cons hx, hequal, crlf, hone]
  · split
    · have hstring := closeString_crlf [c] rest
      rwa [hone] at hstring
    · rename_i hquote
      split
      · rename_i hletter
        have hform := form_word (isWord_read hletter rest)
        simp [wordTail_crlf, crlf, hform.crlf_eq hquote]
      · split
        · rename_i hdigit
          have hform := form_number hdigit rest
          simp [numberTail_crlf, crlf, hform.crlf_eq hquote]
        · simp [crlf]

/-- A line end in a piece is one in its token. -/
theorem crlf_token (p : Pos) (piece : Piece) :
    piece.crlf.token p = Relabel.crlf.token (piece.token p) := by
  cases piece <;> simp [crlf, token, Relabel.token, Relabel.crlf, Text.withCrlf]

theorem read_crlf_text (hc : c ≠ '\n') (rest : List Char) :
    (read c rest).1.crlf.text = Text.crlf (read c rest).1.text := by
  have happend := read_append c rest
  cases hpiece : (read c rest).1 with
  | stray x =>
    rw [hpiece] at happend
    obtain rfl : x = c := (List.cons.inj happend).1
    exact (Text.crlf_cons hc []).symm
  | _ => rfl

end Piece

namespace Lexer
variable {c : Char} {text rest : List Char} {kind : Kind}

theorem not_comment_crlf (h : ∀ r, c = '/' → rest = '/' :: r → False) :
    ∀ r, c = '/' → crlf rest = '/' :: r → False := by
  intro r hc heq
  cases rest using Text.newline_induction with
  | nil => cases heq
  | newline rest => exact absurd (List.cons.inj heq).1 (by decide)
  | other d rest hd =>
    rw [Text.crlf_cons hd] at heq
    exact h rest hc (by rw [(List.cons.inj heq).1])

/-- A line end is skipped whole, and no comment goes past it. -/
theorem splitGap_lineEnd (inComment : Bool) (text : List Char) :
    splitGap inComment ('\r' :: '\n' :: text) =
      (splitGap false text).map ('\r' :: '\n' :: ·) id := by
  cases inComment <;> rfl

theorem splitGap_crlf (inComment : Bool) (text : List Char) :
    splitGap inComment (crlf text) =
      (crlf (splitGap inComment text).1, crlf (splitGap inComment text).2) := by
  fun_induction splitGap inComment text with
  | case1 inComment => cases inComment <;> rfl
  | case2 c rest ih =>
    by_cases hc : c = '\n'
    · subst hc
      have hended : splitGap false (crlf rest) =
          (crlf (splitGap false rest).1, crlf (splitGap false rest).2) := ih
      rw [Text.crlf_newline, splitGap_lineEnd, hended]
      rfl
    · rw [Text.crlf_cons hc, splitGap, ih]
      simp [Text.crlf_cons hc]
  | case3 rest ih =>
    have hslashes : crlf ('/' :: '/' :: rest) = '/' :: '/' :: crlf rest := rfl
    rw [hslashes, splitGap, ih]
    rfl
  | case4 c rest hcomment hspace ih =>
    by_cases hc : c = '\n'
    · subst hc
      rw [Text.crlf_newline, splitGap_lineEnd, ih]
      rfl
    · rw [Text.crlf_cons hc, splitGap, if_pos hspace, ih]
      · simp [Text.crlf_cons hc]
      · exact not_comment_crlf hcomment
  | case5 c rest hcomment hspace =>
    have hc : c ≠ '\n' := by
      rintro rfl
      exact hspace rfl
    rw [Text.crlf_cons hc, splitGap, if_neg hspace]
    · rfl
    · exact not_comment_crlf hcomment

theorem tokens_crlf (p : Pos) (text : List Char) :
    tokens p (crlf text) = (tokens p text).map Relabel.crlf.token := by
  induction p, text using tokens.induct with
  | case1 p text h =>
    have hlast : (splitGap false (crlf text)).2 = [] := by rw [splitGap_crlf, h]; rfl
    rw [tokens_last h, tokens_last hlast, Pos.past_crlf]
    rfl
  | case2 p text start c rest h found hshorter ih =>
    have hc : c ≠ '\n' := by
      rintro rfl
      exact splitGap_rest false text (h ▸ .inl ⟨'\n', rfl, by decide⟩)
    have hahead : (splitGap false (crlf text)).2 = c :: crlf rest := by
      rw [splitGap_crlf, h, Text.crlf_cons hc]
    have hgap : (splitGap false (crlf text)).1 = crlf (splitGap false text).1 := by
      rw [splitGap_crlf]
    rw [tokens_piece hahead, tokens_piece h, hgap, Piece.read_crlf hc, Pos.past_crlf,
      Piece.read_crlf_text hc, Pos.past_crlf, Piece.crlf_token, ih]
    rfl

/-- A text with longer line ends has the tokens of the text, with these line ends in them. -/
theorem tokenize_crlf (source : String) :
    tokenize (Text.withCrlf source) = (tokenize source).map Relabel.crlf.token := by
  rw [tokenize, Text.withCrlf, String.toList_ofList]
  exact tokens_crlf Pos.start source.toList

theorem Form.crlf_eq_of_kind (h : Form text kind) (hkind : kind ≠ .string) : crlf text = text := by
  obtain ⟨c, tail, rfl⟩ := List.exists_cons_of_ne_nil h.ne_nil
  refine h.crlf_eq ?_
  rintro rfl
  exact hkind h.kind_of_quote

/-- No token but that of a string, closed or open, holds a line end. -/
theorem crlf_token_eq (p : Pos) (text : List Char) :
    ∀ t ∈ tokens p text, t.kind ≠ .string → ¬ t.Unterminated → Relabel.crlf.token t = t := by
  induction p, text using tokens.induct with
  | case1 p text h =>
    rw [tokens_last h]
    intro t ht _ _
    obtain rfl := List.mem_singleton.mp ht
    rfl
  | case2 p text start c rest h found hshorter ih =>
    rw [tokens_piece h]
    intro t ht hkind hclosed
    cases ht with
    | tail _ ht => exact ih t ht hkind hclosed
    | head =>
      have hlongest := read_longest c rest
      generalize (Piece.read c rest).1 = piece at hkind hclosed hlongest ⊢
      cases piece with
      | proper kind text =>
        have htext := hlongest.1.crlf_eq_of_kind hkind
        simp [Piece.token, Relabel.token, Relabel.crlf, Text.withCrlf, htext]
      | openString text => exact absurd ⟨rfl, rfl⟩ hclosed
      | stray x => rfl

end Lexer

structure Token.SameButLineEnds (t t' : Token) : Prop where
  kind_eq : t'.kind = t.kind
  pos_eq : t'.pos = t.pos
  error_eq : t'.error = t.error
  lexeme_eq : t'.lexeme = Text.withCrlf t.lexeme
  eq_of_closed : t.kind ≠ .string → ¬ t.Unterminated → t' = t

namespace Lexer
variable {source : String}

theorem same_but_line_ends {t : Token} (ht : t ∈ tokenize source) :
    t.SameButLineEnds (Relabel.crlf.token t) :=
  ⟨rfl, rfl, rfl, rfl, crlf_token_eq _ _ t ht⟩

/-- Token by token, the two texts differ in line ends inside strings only. -/
theorem tokens_same_but_line_ends (source : String) :
    List.Forall₂ Token.SameButLineEnds (tokenize source) (tokenize (Text.withCrlf source)) := by
  rw [tokenize_crlf, List.forall₂_map_right_iff, List.forall₂_same]
  exact fun t ht => same_but_line_ends ht

/-- A comment, and a string over two lines. -/
example : tokenize (Text.withCrlf "//\n\"\n\"1") =
    [⟨.string, "\"\r\n\"", ⟨2, 1⟩, none⟩, ⟨.number, "1", ⟨3, 2⟩, none⟩, Token.eofAt ⟨3, 3⟩] := by
  decide +kernel

end Lexer

end Reckon
