import Reckon.Proofs.Grammar.Recognition
import Reckon.Proofs.Number.Positional
import Reckon.Proofs.Program.Execution
import Reckon.Proofs.Token.Boundary

/-! What is written for a finite number can be read back. Its text is one number token, after a minus
sign if the number is negative, and run as a program the text has that number as its value. -/
namespace Reckon

namespace Lexer
variable {c : Char} {kind : Kind} {p : Pos} {rest : List Char}

theorem tokens_number {text : List Char} (h : Form text .number)
    (hrest : ∀ x ∈ rest.head?, Breaks x) (p : Pos) :
    tokens p (text ++ rest) = ⟨.number, String.ofList text, p, none⟩ :: tokens (p.past text) rest := by
  refine tokens_form h ?_ hrest
  obtain ⟨c, tail, rfl, hc, -⟩ := Numeral.form_plain h
  obtain ⟨hspace, hslash⟩ : c ∉ [' ', '\t', '\r', '\n'] ∧ c ≠ '/' := of_isDigit hc (by decide)
  exact not_startsGap_cons hspace hslash

end Lexer

namespace Decimal
variable {d : Decimal} {size : Magnitude}

def signed (negative : Bool) (d : Decimal) : List Char :=
  (if negative then ['-'] else []) ++ d.positional

def minusToken : Token := ⟨.minus, "-", Pos.start, none⟩

def numberToken (d : Decimal) (p : Pos) : Token := ⟨.number, String.ofList d.positional, p, none⟩

def spelling : (negative : Bool) → Decimal → List Token
  | false, d => [d.numberToken Pos.start]
  | true, d => [minusToken, d.numberToken (Pos.start.after '-')]

def tree : (negative : Bool) → Decimal → Expr
  | false, d => .literal (d.numberToken Pos.start)
  | true, d => .unary minusToken (.literal (d.numberToken (Pos.start.after '-')))

theorem tokens_signed (negative : Bool) (d : Decimal) {rest : List Char}
    (hrest : ∀ x ∈ rest.head?, Lexer.Breaks x) :
    Lexer.tokens Pos.start (signed negative d ++ rest) =
      spelling negative d ++ Lexer.tokens (Pos.start.past (signed negative d)) rest := by
  have hnumber := Lexer.tokens_number (form_positional d) hrest
  cases negative with
  | false => exact hnumber Pos.start
  | true =>
    have hminus : ('-', Kind.minus) ∈ Kind.punctuation := by decide
    have htokens := Lexer.tokens_mark hminus (by decide) Pos.start (d.positional ++ rest)
    rw [hnumber] at htokens
    exact htokens

theorem tokenize_signed (negative : Bool) (d : Decimal) :
    Lexer.tokenize (String.ofList (signed negative d)) =
      spelling negative d ++ [Token.eofAt (Pos.counted (signed negative d))] := by
  have hnone : ∀ x ∈ ([] : List Char).head?, Lexer.Breaks x := by simp
  have htokens := tokens_signed negative d hnone
  rw [List.append_nil, Lexer.tokens_nil, Pos.start_past] at htokens
  rw [Lexer.tokenize, String.toList_ofList, htokens]

-- These are stated of a decimal at large, since that of a size is never to be computed.

theorem tokenize_positive (d : Decimal) :
    Lexer.tokenize (String.ofList (signed false d)) =
      [⟨.number, String.ofList (signed false d), Pos.start, none⟩,
        Token.eofAt (Pos.counted (String.ofList (signed false d)).toList)] := by
  rw [tokenize_signed]
  simp [spelling, numberToken, signed]

theorem tokenize_negative (d : Decimal) :
    Lexer.tokenize (String.ofList (signed true d)) =
      [minusToken, ⟨.number, String.ofList (signed false d), ⟨1, 2⟩, none⟩,
        Token.eofAt (Pos.counted (String.ofList (signed true d)).toList)] := by
  rw [tokenize_signed]
  simp [spelling, numberToken, signed, Pos.after, Pos.start]

theorem ofList_negative (d : Decimal) :
    String.ofList (signed true d) = "-" ++ String.ofList (signed false d) := by
  rw [← String.toList_inj]
  simp [signed]

theorem derives_spelling (negative : Bool) (d : Decimal) :
    Grammar.Derives 64 .expr (spelling negative d) (tree negative d) := by
  have hliteral : ∀ m p, Grammar.Derives m .unary [d.numberToken p] (.literal (d.numberToken p)) :=
    fun _ _ => .unsigned (.number rfl)
  cases negative with
  | false => exact (hliteral 64 Pos.start).of_unary
  | true =>
    have hminus : minusToken.kind = .plus ∨ minusToken.kind = .minus := .inr rfl
    exact (Grammar.Derives.signed hminus (hliteral 63 (Pos.start.after '-'))).of_unary

theorem parse_signed (negative : Bool) (d : Decimal) :
    Parser.parse (Lexer.tokenize (String.ofList (signed negative d) ++ ";")) =
      .ok [.expression (tree negative d)] := by
  have hbreaks : ∀ x ∈ [';'].head?, Lexer.Breaks x := by
    simp only [List.head?_cons, Option.mem_some_iff, forall_eq', Lexer.Breaks]
    decide
  have hsemicolon : (';', Kind.semicolon) ∈ Kind.punctuation := by decide
  have htokens := tokens_signed negative d hbreaks
  rw [Lexer.tokens_mark hsemicolon (by decide), Lexer.tokens_nil] at htokens
  have hsource : (String.ofList (signed negative d) ++ ";").toList = signed negative d ++ [';'] := by
    simp
  rw [Lexer.tokenize, hsource, htokens]
  exact Parser.parse_statement (derives_spelling negative d) rfl rfl

theorem value_tree (negative : Bool) (h : d.toNumber false = .finite false size) :
    (Stmt.expression (tree negative d)).value = .ok (.finite negative size) := by
  have hliteral : ∀ p, literalValue (d.numberToken p) = .ok (.finite false size) := by
    intro p
    simp [literalValue, numberToken, number?_positional, h]
  have hroom : Node.levels - 1 = 327 + 2 := rfl
  cases negative with
  | false =>
    simp [Stmt.value, Stmt.expr, tree, hroom, Expr.value, hliteral, Except.mapError]
  | true =>
    simp [Stmt.value, Stmt.expr, tree, hroom, Expr.value, hliteral, Except.mapError, bind,
      Except.bind, minusToken, unaryValue, Number.neg]

theorem execute_tree (negative : Bool) (h : d.toNumber false = .finite false size) (style : Style) :
    (execute style [.expression (tree negative d)]).2 = .ok [.finite negative size] := by
  rw [execute_cons_ok (value_tree negative h)]
  rfl

end Decimal

namespace Number

theorem text_eq (negative : Bool) (size : Magnitude) :
    (finite negative size).text = String.ofList (Decimal.signed negative (.shortest size)) :=
  rfl

theorem tokenize_unsigned (size : Magnitude) :
    Lexer.tokenize (finite false size).text =
      [⟨.number, (finite false size).text, Pos.start, none⟩,
        Token.eofAt (Pos.counted (finite false size).text.toList)] := by
  rw [text_eq]
  exact Decimal.tokenize_positive _

theorem text_negative (size : Magnitude) :
    (finite true size).text = "-" ++ (finite false size).text := by
  rw [text_eq, text_eq]
  exact Decimal.ofList_negative _

theorem tokenize_signed (size : Magnitude) :
    Lexer.tokenize (finite true size).text =
      [⟨.minus, "-", Pos.start, none⟩, ⟨.number, (finite false size).text, ⟨1, 2⟩, none⟩,
        Token.eofAt (Pos.counted (finite true size).text.toList)] := by
  rw [text_eq, text_eq]
  exact Decimal.tokenize_negative _

theorem text_runs (negative : Bool) (size : Magnitude) :
    ∃ program, Parser.parse (Lexer.tokenize ((finite negative size).text ++ ";")) = .ok program ∧
      ∀ style, (execute style program).2 = .ok [.finite negative size] :=
  ⟨_, Decimal.parse_signed negative (.shortest size),
    Decimal.execute_tree negative (Decimal.toNumber_shortest false size)⟩

theorem text_injective {a b : Bool} {x y : Magnitude}
    (h : (finite a x).text = (finite b y).text) : finite a x = finite b y := by
  obtain ⟨program, hparse, hvalue⟩ := text_runs a x
  obtain ⟨program', hparse', hvalue'⟩ := text_runs b y
  rw [h, hparse'] at hparse
  cases hparse
  have hvalues := (hvalue .plain).symm.trans (hvalue' .plain)
  simpa using hvalues

/-- The text of a finite number is one number token, or a minus sign and one if the sign is set; run
as a statement it has exactly that number as its value; so no two finite numbers share a text. -/
theorem text_reads_back :
    (∀ size, Lexer.tokenize (finite false size).text =
      [⟨.number, (finite false size).text, Pos.start, none⟩,
        Token.eofAt (Pos.counted (finite false size).text.toList)]) ∧
    (∀ size, (finite true size).text = "-" ++ (finite false size).text ∧
      Lexer.tokenize (finite true size).text =
        [⟨.minus, "-", Pos.start, none⟩, ⟨.number, (finite false size).text, ⟨1, 2⟩, none⟩,
          Token.eofAt (Pos.counted (finite true size).text.toList)]) ∧
    (∀ negative size, ∃ program,
      Parser.parse (Lexer.tokenize ((finite negative size).text ++ ";")) = .ok program ∧
        ∀ style, (execute style program).2 = .ok [.finite negative size]) ∧
    ∀ a x b y, (finite a x).text = (finite b y).text ↔ a = b ∧ x = y := by
  refine ⟨tokenize_unsigned, fun size => ⟨text_negative size, tokenize_signed size⟩, text_runs, ?_⟩
  intro a x b y
  constructor
  · intro h
    simpa using text_injective h
  · rintro ⟨rfl, rfl⟩
    rfl

end Number
end Reckon
