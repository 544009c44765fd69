import Reckon.Proofs.Grammar.Tree
import Reckon.Proofs.Program.Styles
import Reckon.Proofs.Token.Newline
import Reckon.Proofs.Token.Order

/-! Trees against the tokens they were read from. Each statement has a stretch of the list to itself.
Its tree keeps the numbers and operators of the stretch, in their order, and stands where the first of
them does. -/
namespace Reckon

namespace Expr

def tokens : Expr → List Token
  | literal token => [token]
  | unary op right => op :: right.tokens
  | binary left op right => left.tokens ++ op :: right.tokens

def parts : Expr → List Expr
  | literal token => [literal token]
  | unary op right => unary op right :: right.parts
  | binary left op right => binary left op right :: (left.parts ++ right.parts)

theorem tokens_head? (e : Expr) : e.tokens.head? = some e.first := by
  induction e with
  | literal token => rfl
  | unary op right => rfl
  | binary left op right ih => rw [tokens, List.head?_append, ih]; rfl

theorem toNode_pos (e : Expr) : e.toNode.pos = e.first.pos := by
  induction e with
  | literal token => rfl
  | unary op right => rfl
  | binary left op right ih => exact ih

end Expr

namespace Grammar
variable {m : Nat} {x : Phrase} {u v : List Token} {e : Expr} {s : Stmt} {p : List Stmt}
  {rounds : List Round}

def kept : List Kind := .number :: Parser.tiers.flatten

def dropped : List Kind := [.printWord, .leftParen, .rightParen, .semicolon]

theorem kept_or_dropped :
    ∀ k ∈ Kind.printWord :: .semicolon :: ingredients, k ∈ kept ∨ k ∈ dropped := by
  decide

def keptOf (u : List Token) : List Token := u.filter (·.kind ∈ kept)

theorem keptOf_append (u v : List Token) : keptOf (u ++ v) = keptOf u ++ keptOf v :=
  List.filter_append u v

theorem keptOf_cons {t : Token} (ht : t.kind ∈ kept) (u : List Token) :
    keptOf (t :: u) = t :: keptOf u :=
  List.filter_cons_of_pos (by simpa using ht)

theorem keptOf_cons_dropped {t : Token} (ht : t.kind ∉ kept) (u : List Token) :
    keptOf (t :: u) = keptOf u :=
  List.filter_cons_of_neg (by simpa using ht)

theorem folded_tokens (first : Expr) (rounds : List Round) :
    (folded first rounds).tokens =
      first.tokens ++ rounds.flatMap fun r => r.op :: r.tree.tokens := by
  induction rounds generalizing first with
  | nil => simp
  | cons r rounds ih => rw [folded_cons, ih]; simp [Expr.tokens]

theorem keptOf_spelled (hops : ∀ r ∈ rounds, r.op.kind ∈ kept)
    (hrounds : ∀ r ∈ rounds, r.tree.tokens = keptOf r.tokens) :
    keptOf (spelled rounds) = rounds.flatMap fun r => r.op :: r.tree.tokens := by
  induction rounds with
  | nil => rfl
  | cons r rounds ih =>
    obtain ⟨hop, hops⟩ := List.forall_mem_cons.mp hops
    obtain ⟨hround, hrounds⟩ := List.forall_mem_cons.mp hrounds
    rw [spelled_cons, keptOf_cons hop, keptOf_append, ih hops hrounds, ← hround]
    rfl

/-- Only parentheses leave no token behind. -/
theorem Derives.tokens_eq (h : Derives m x u e) : e.tokens = keptOf u := by
  induction h with
  | expr _ ih => exact ih
  | level rounds hl _ hops _ ih ihs =>
    have hkept : ∀ r ∈ rounds, r.op.kind ∈ kept := fun r hr =>
      List.mem_cons_of_mem _ (hl.mem_tiers _ (hops r hr))
    rw [folded_tokens, keptOf_append, keptOf_spelled hkept ihs, ih]
  | @signed m op u e hop _ ih =>
    have hkept : op.kind ∈ kept := by
      obtain hop | hop := hop <;> rw [hop] <;> decide
    rw [Expr.tokens, keptOf_cons hkept, ih]
  | unsigned _ ih => exact ih
  | @number m t ht => exact (keptOf_cons (by rw [ht]; decide) []).symm
  | @group m opening u closing e hopening _ hclosing ih =>
    have hleft : opening.kind ∉ kept := by rw [hopening]; decide
    have hright : closing.kind ∉ kept := by rw [hclosing]; decide
    rw [keptOf_cons_dropped hleft, keptOf_append, keptOf_cons_dropped hright, ih]
    exact (List.append_nil _).symm

theorem Statement.tokens_eq (h : Statement m u s) : s.expr.tokens = keptOf u := by
  cases h with
  | @print keyword u e semicolon hprint he hkind =>
    have hkeyword : keyword.kind ∉ kept := by rw [hprint]; decide
    have hsemicolon : semicolon.kind ∉ kept := by rw [hkind]; decide
    rw [keptOf_cons_dropped hkeyword, keptOf_append, keptOf_cons_dropped hsemicolon]
    exact he.tokens_eq.trans (List.append_nil _).symm
  | @expression u e semicolon he hkind =>
    have hsemicolon : semicolon.kind ∉ kept := by rw [hkind]; decide
    rw [keptOf_append, keptOf_cons_dropped hsemicolon]
    exact he.tokens_eq.trans (List.append_nil _).symm

/-- The semicolon is the last token of a statement and the only one of its kind. -/
theorem Statement.ends (h : Statement m u s) :
    ∃ front last, u = front ++ [last] ∧ last.kind = .semicolon ∧
      ∀ t ∈ front, t.kind ≠ .semicolon := by
  cases h with
  | @print keyword u e semicolon hprint he hkind =>
    have hkeyword : keyword.kind ≠ .semicolon := by rw [hprint]; decide
    have hinside := he.kind_ne (k := .semicolon) (by decide)
    exact ⟨keyword :: u, semicolon, rfl, hkind, List.forall_mem_cons.mpr ⟨hkeyword, hinside⟩⟩
  | @expression u e semicolon he hkind => exact ⟨u, semicolon, rfl, hkind, he.kind_ne (by decide)⟩

end Grammar

open Grammar

structure Stretch (u : List Token) (s : Stmt) : Prop where
  statement : Statement 64 u s
  ends : ∃ front last, u = front ++ [last] ∧ last.kind = .semicolon ∧
    ∀ t ∈ front, t.kind ≠ .semicolon
  tokens_eq : s.expr.tokens = u.filter (·.kind ∈ kept)
  others : ∀ t ∈ u, t.kind ∉ kept → t.kind ∈ dropped
  inOrder : InOrder s.expr.tokens
  first_eq : ∃ t ∈ s.expr.tokens.head?, s.toNode.first? = some t
  part_pos : ∀ e ∈ s.expr.parts, ∃ t ∈ e.tokens.head?, e.toNode.pos = t.pos
  expression_pos : ∀ e, s = .expression e → s.toNode.pos = e.toNode.pos
  print_pos : ∀ p e, s = .print p e →
    ∃ keyword ∈ u.head?, keyword.kind = .printWord ∧ s.toNode.pos = keyword.pos

theorem Pos.orElse_of_counted {p : Pos} (h : 1 ≤ p.line ∧ 1 ≤ p.col) (q : Pos) : p.orElse q = p := by
  have hline : p.line ≠ 0 := by omega
  have hcol : p.col ≠ 0 := by omega
  simp [orElse, hline, hcol]

variable {u : List Token} {s : Stmt} {p : List Stmt}

theorem Stretch.of_statement (h : Statement 64 u s) (horder : InOrder u)
    (hcounted : ∀ t ∈ u, 1 ≤ t.pos.line ∧ 1 ≤ t.pos.col) : Stretch u s where
  statement := h
  ends := h.ends
  tokens_eq := h.tokens_eq
  others t ht hkind := (kept_or_dropped _ (h.ingredients t ht)).resolve_left hkind
  inOrder := by
    rw [h.tokens_eq]
    exact horder.filter _
  first_eq := ⟨s.first, s.expr.tokens_head?, Node.first?_stmt s⟩
  part_pos e _ := ⟨e.first, e.tokens_head?, e.toNode_pos⟩
  expression_pos := by
    rintro e rfl
    rfl
  print_pos := by
    rintro p e rfl
    cases h with
    | @print keyword _ _ _ hprint =>
      have hpos := hcounted keyword List.mem_cons_self
      exact ⟨keyword, rfl, hprint, Pos.orElse_of_counted hpos _⟩

/-- The stretches of a program follow one another. -/
theorem exists_stretches (h : Program 64 u p) (horder : InOrder u)
    (hcounted : ∀ t ∈ u, 1 ≤ t.pos.line ∧ 1 ≤ t.pos.col) :
    ∃ stretches, u = stretches.flatten ∧ List.Forall₂ Stretch stretches p := by
  induction h with
  | nil => exact ⟨[], rfl, .nil⟩
  | @cons u s v p hs _ ih =>
    obtain ⟨hfirst, hmore, -⟩ := List.pairwise_append.mp horder
    obtain ⟨hcountedFirst, hcountedMore⟩ := List.forall_mem_append.mp hcounted
    obtain ⟨stretches, rfl, hstretches⟩ := ih hmore hcountedMore
    exact ⟨u :: stretches, rfl, .cons (.of_statement hs hfirst hcountedFirst) hstretches⟩

/-- The tokens of an accepted text are one stretch after another, one for each statement and then the
end. A statement keeps the numbers and operators of its stretch, each once and in the order of their
places; every tree in it stands where the first token does that the tree keeps, and the statement where
its expression or its keyword does. -/
theorem statements_keep_their_stretches {source : String} {p : List Stmt}
    (h : Parser.parse (Lexer.tokenize source) = .ok p) :
    ∃ stretches last, Lexer.tokenize source = stretches.flatten ++ [last] ∧ last.kind = .eof ∧
      List.Forall₂ Stretch stretches p := by
  obtain ⟨htokens, hstop⟩ := Lexer.tokenize_eq source
  have hbody : (Parser.body (Lexer.tokenize source)).Sublist (Lexer.tokenize source) :=
    List.takeWhile_sublist _
  have horder := (Lexer.tokens_inOrder Pos.start source.toList).sublist hbody
  obtain ⟨stretches, hflatten, hstretches⟩ := exists_stretches (Parser.parse_eq_ok.mp h) horder
    fun t ht => Lexer.tokenize_counted source t (hbody.subset ht)
  exact ⟨stretches, _, hflatten ▸ htokens, by rw [hstop]; rfl, hstretches⟩

/-- Two statements, with a sign, parentheses and a line end. -/
theorem signed_statements_keep_their_stretches :
    let tok (kind : Kind) (lexeme : String) (line col : Int) : Token :=
      ⟨kind, lexeme, ⟨line, col⟩, none⟩
    let e : Expr := .binary (.literal (tok .number "1" 1 8)) (tok .star "*" 1 10)
      (.unary (tok .minus "-" 2 2) (.literal (tok .number "2" 2 3)))
    let source := "print (1 *\n -2); 3;"
    let p : List Stmt := [.print ⟨1, 1⟩ e, .expression (.literal (tok .number "3" 2 7))]
    Parser.parse (Lexer.tokenize source) = .ok p ∧
      ∃ stretches last, Lexer.tokenize source = stretches.flatten ++ [last] ∧ last.kind = .eof ∧
        List.Forall₂ Stretch stretches p := by
  intro tok e source p
  have hparse : Parser.parse (Lexer.tokenize source) = .ok p := by decide +kernel
  exact ⟨hparse, statements_keep_their_stretches hparse⟩

end Reckon
