import Reckon.Proofs.Program.Placeless

/-! The rendered text of a program. For trees read from texts it can be read back in one way only: a
number ends where no digit and no point follows, an operator at the next space, and an application at
its parenthesis. So the text determines the trees, up to places. -/
namespace Reckon
open Relabel (placeless)
open Lexer (Form marks runs_unique)

section Lexemes
variable {text : List Char} {kind : Kind} {s t : Token}

theorem mark_of_operator (h : Form text kind) (hkind : kind ∈ Parser.tiers.flatten) :
    (text, kind) ∈ marks := by
  cases h with
  | mark hmark => exact hmark
  | string _ => exact absurd hkind (by decide)
  | reserved _ hmem =>
    have hall : ∀ x ∈ Kind.reserved, x.2 ∉ Parser.tiers.flatten := by decide
    exact absurd hkind (hall _ hmem)
  | identifier _ _ => exact absurd hkind (by decide)
  | whole _ => exact absurd hkind (by decide)
  | fraction _ _ => exact absurd hkind (by decide)

theorem ne_space_of_operator (h : Form text kind) (hkind : kind ∈ Parser.tiers.flatten) :
    ∀ c ∈ text, (c != ' ') = true := by
  have hall : ∀ x ∈ marks, x.1.all (· != ' ') = true := by decide
  exact List.all_eq_true.mp (hall _ (mark_of_operator h hkind))

def isNumeric (c : Char) : Bool := isDigit c || c == '.'

theorem isNumeric_of_number (h : Form text .number) : ∀ c ∈ text, isNumeric c = true := by
  obtain hdigits | ⟨digits, more, hdigits, hmore, rfl⟩ := h.number_cases
  · intro c hc
    simp [isNumeric, hdigits.all c hc]
  · intro c hc
    simp only [List.mem_append, List.mem_cons] at hc
    obtain hc | rfl | hc := hc
    · simp [isNumeric, hdigits.all c hc]
    · rfl
    · simp [isNumeric, hmore.all c hc]

theorem exists_numeric_start (hkind : t.kind = .number) (h : t.Spelled) :
    ∃ c more, t.lexeme.toList = c :: more ∧ isNumeric c = true := by
  rw [Token.Spelled, hkind] at h
  obtain ⟨c, more, hlexeme⟩ := List.exists_cons_of_ne_nil h.ne_nil
  exact ⟨c, more, hlexeme, isNumeric_of_number h c (by simp [hlexeme])⟩

theorem placeless_of_lexeme (hs : s.Spelled) (ht : t.Spelled) (h : s.lexeme = t.lexeme) :
    placeless.token s = placeless.token t := by
  rw [placeless_token]
  simp [Token.alike, hs.kind_eq ht h, h]

end Lexemes

def Expr.Spelled : Expr → Prop
  | .literal token => token.kind = .number ∧ token.Spelled
  | .unary op right => op.kind ∈ Parser.tiers.flatten ∧ op.Spelled ∧ right.Spelled
  | .binary left op right =>
    op.kind ∈ Parser.tiers.flatten ∧ op.Spelled ∧ left.Spelled ∧ right.Spelled

theorem inherited_spelled : Grammar.Inherited Token.Spelled Expr.Spelled where
  literal hspelled hnumber := ⟨hnumber, hspelled⟩
  unary hspelled hop hright := by
    have hall : ∀ k ∈ Kind.signs, k ∈ Parser.tiers.flatten := by decide
    exact ⟨hall _ hop, hspelled, hright⟩
  binary hspelled hop hleft hright := ⟨hop, hspelled, hleft, hright⟩

theorem spelled_of_parse {source : String} {p : List Stmt}
    (h : Parser.parse (Lexer.tokenize source) = .ok p) : ∀ s ∈ p, s.expr.Spelled := by
  have hprogram := Parser.parse_eq_ok.mp h
  refine hprogram.inherits inherited_spelled fun t ht => ?_
  exact Lexer.tokens_spelled Pos.start source.toList t (List.takeWhile_subset _ ht)
    (hprogram.known t ht) (Parser.body_ne_eof _ t ht)

def applied (op : Token) (operands : List Char) : List Char :=
  '(' :: (op.lexeme.toList ++ ' ' :: operands)

def Expr.shown : Expr → List Char
  | .literal token => token.lexeme.toList
  | .unary op right => applied op (right.shown ++ [')'])
  | .binary left op right => applied op (left.shown ++ ' ' :: (right.shown ++ [')']))

def Stmt.shown : Stmt → List Char
  | .expression e => e.shown ++ [';']
  | .print _ e => ['p', 'r', 'i', 'n', 't', ' '] ++ (e.shown ++ [';'])

section Shown
variable {e d : Expr} {s t : Stmt} {p q : List Stmt} {op op' : Token} {room : Nat}
  {rest rest' operands operands' : List Char}

theorem render_eq_shown (h : e.height ≤ room) :
    e.toNode.render room = .ok (String.ofList e.shown) := by
  induction e generalizing room with
  | literal token =>
    cases room with
    | zero => simp [Expr.height] at h
    | succ room => simp [Expr.toNode, Node.render, Expr.shown]
  | unary op right ih =>
    cases room with
    | zero => simp [Expr.height] at h
    | succ room =>
      have hright := ih (Nat.le_of_succ_le_succ h)
      simp only [Expr.toNode, Node.render, hright]
      refine congrArg Except.ok (String.toList_inj.mp ?_)
      simp [Expr.shown, applied]
  | binary left op right ihl ihr =>
    cases room with
    | zero => simp [Expr.height] at h
    | succ room =>
      obtain ⟨hl, hr⟩ : left.height ≤ room ∧ right.height ≤ room :=
        Nat.max_le.mp (Nat.le_of_succ_le_succ h)
      simp only [Expr.toNode, Node.render, ihl hl, ihr hr]
      refine congrArg Except.ok (String.toList_inj.mp ?_)
      simp [Expr.shown, applied]

theorem render?_eq_shown (h : s.expr.height < Node.levels) :
    s.render? = some (String.ofList s.shown) := by
  have hlevels : Node.levels = (Node.levels - 1) + 1 := rfl
  have hinner := render_eq_shown (Nat.le_sub_one_of_lt h)
  rw [Stmt.render?, hlevels]
  cases s with
  | expression e =>
    simp only [Stmt.toNode, Node.render, Stmt.expr] at hinner ⊢
    rw [hinner]
    refine congrArg some (String.toList_inj.mp ?_)
    simp [Stmt.shown]
  | print keyword e =>
    simp only [Stmt.toNode, Node.render, Stmt.expr] at hinner ⊢
    rw [hinner]
    refine congrArg some (String.toList_inj.mp ?_)
    simp [Stmt.shown]

theorem renderProgram?_eq_shown (h : ∀ s ∈ p, s.expr.height < Node.levels) :
    renderProgram? p = some (String.ofList (['\n'].intercalate (p.map Stmt.shown))) := by
  have hmap : p.mapM Stmt.render? = some (p.map fun s => String.ofList s.shown) := by
    induction p with
    | nil => rfl
    | cons s p ih =>
      have htail := ih fun r hr => h r (List.mem_cons_of_mem s hr)
      simp [List.mapM_cons, render?_eq_shown (h s (by simp)), htail]
  rw [renderProgram?, hmap]
  refine congrArg some (String.toList_inj.mp ?_)
  simp [String.toList_intercalate, Function.comp_def]

def closers : List Char := [' ', ')', ';']

def Closed (rest : List Char) : Prop := ∀ c ∈ rest.head?, c ∈ closers

theorem closed_space (rest : List Char) : Closed (' ' :: rest) := by
  simp [Closed, closers]

theorem closed_paren (rest : List Char) : Closed (')' :: rest) := by
  simp [Closed, closers]

theorem closed_semicolon (rest : List Char) : Closed (';' :: rest) := by
  simp [Closed, closers]

theorem Closed.not_isNumeric (h : Closed rest) : ∀ c ∈ rest.head?, isNumeric c = false := by
  have hall : closers.all (fun c => !isNumeric c) = true := by decide
  intro c hc
  simpa using List.all_eq_true.mp hall c (h c hc)

theorem Expr.shown_unary (op : Token) (right : Expr) (rest : List Char) :
    (unary op right).shown ++ rest = applied op (right.shown ++ ')' :: rest) := by
  simp [shown, applied]

theorem Expr.shown_binary (left : Expr) (op : Token) (right : Expr) (rest : List Char) :
    (binary left op right).shown ++ rest =
      applied op (left.shown ++ ' ' :: (right.shown ++ ')' :: rest)) := by
  simp [shown, applied]

theorem applied_unique (hkind : op.kind ∈ Parser.tiers.flatten) (hop : op.Spelled)
    (hkind' : op'.kind ∈ Parser.tiers.flatten) (hop' : op'.Spelled)
    (h : applied op operands = applied op' operands') :
    placeless.token op = placeless.token op' ∧ operands = operands' := by
  obtain ⟨hlexeme, hoperands⟩ := runs_unique (ne_space_of_operator hop hkind)
    (ne_space_of_operator hop' hkind') (by simp) (by simp) (List.cons.inj h).2
  exact ⟨placeless_of_lexeme hop hop' (String.toList_inj.mp hlexeme), (List.cons.inj hoperands).2⟩

/-- A number starts with a digit and an application does not. -/
theorem lexeme_ne_applied {token : Token} (hnumber : token.kind = .number) (h : token.Spelled) :
    token.lexeme.toList ++ rest ≠ applied op operands := by
  intro heq
  obtain ⟨c, more, hlexeme, hnumeric⟩ := exists_numeric_start hnumber h
  rw [hlexeme] at heq
  obtain ⟨rfl, -⟩ := List.cons.inj heq
  exact absurd hnumeric (by decide)

/-- Wherever the text of the expression stands, it is read as this expression and no other, and ends
where it does. -/
def ReadsBack (e : Expr) : Prop :=
  ∀ {d rest rest'}, d.Spelled → Closed rest → Closed rest' → e.shown ++ rest = d.shown ++ rest' →
    placeless.expr e = placeless.expr d ∧ rest = rest'

theorem readsBack_literal {token : Token} (hnumber : token.kind = .number) (h : token.Spelled) :
    ReadsBack (.literal token) := by
  intro d rest rest' hd hrest hrest' heq
  cases d with
  | literal token' =>
    obtain ⟨hnumber', h'⟩ := hd
    have hform : Form token.lexeme.toList .number := hnumber ▸ h
    have hform' : Form token'.lexeme.toList .number := hnumber' ▸ h'
    obtain ⟨hlexeme, hends⟩ := runs_unique (isNumeric_of_number hform)
      (isNumeric_of_number hform') hrest.not_isNumeric hrest'.not_isNumeric heq
    have htoken := placeless_of_lexeme h h' (String.toList_inj.mp hlexeme)
    exact ⟨congrArg Expr.literal htoken, hends⟩
  | unary op' right' =>
    rw [Expr.shown_unary] at heq
    exact absurd heq (lexeme_ne_applied hnumber h)
  | binary left' op' right' =>
    rw [Expr.shown_binary] at heq
    exact absurd heq (lexeme_ne_applied hnumber h)

theorem readsBack_unary {right : Expr} (hkind : op.kind ∈ Parser.tiers.flatten)
    (hop : op.Spelled) (hright : ReadsBack right) : ReadsBack (.unary op right) := by
  intro d rest rest' hd hrest hrest' heq
  rw [Expr.shown_unary] at heq
  cases d with
  | literal token' => exact absurd heq.symm (lexeme_ne_applied hd.1 hd.2)
  | unary op' right' =>
    obtain ⟨hkind', hop', hright'⟩ := hd
    rw [Expr.shown_unary] at heq
    obtain ⟨htoken, hoperands⟩ := applied_unique hkind hop hkind' hop' heq
    obtain ⟨htree, hends⟩ := hright hright' (closed_paren _) (closed_paren _) hoperands
    exact ⟨by rw [Relabel.expr, Relabel.expr, htoken, htree], (List.cons.inj hends).2⟩
  | binary left' op' right' =>
    -- the operand ends before a parenthesis in one text and before a space in the other
    obtain ⟨hkind', hop', hleft', -⟩ := hd
    rw [Expr.shown_binary] at heq
    obtain ⟨-, hoperands⟩ := applied_unique hkind hop hkind' hop' heq
    obtain ⟨-, hends⟩ := hright hleft' (closed_paren _) (closed_space _) hoperands
    cases hends

theorem readsBack_binary {left right : Expr} (hkind : op.kind ∈ Parser.tiers.flatten)
    (hop : op.Spelled) (hleft : ReadsBack left) (hright : ReadsBack right) :
    ReadsBack (.binary left op right) := by
  intro d rest rest' hd hrest hrest' heq
  rw [Expr.shown_binary] at heq
  cases d with
  | literal token' => exact absurd heq.symm (lexeme_ne_applied hd.1 hd.2)
  | unary op' right' =>
    obtain ⟨hkind', hop', hright'⟩ := hd
    rw [Expr.shown_unary] at heq
    obtain ⟨-, hoperands⟩ := applied_unique hkind hop hkind' hop' heq
    obtain ⟨-, hends⟩ := hleft hright' (closed_space _) (closed_paren _) hoperands
    cases hends
  | binary left' op' right' =>
    obtain ⟨hkind', hop', hleft', hright'⟩ := hd
    rw [Expr.shown_binary] at heq
    obtain ⟨htoken, hoperands⟩ := applied_unique hkind hop hkind' hop' heq
    obtain ⟨htree, hmore⟩ := hleft hleft' (closed_space _) (closed_space _) hoperands
    obtain ⟨htree', hends⟩ :=
      hright hright' (closed_paren _) (closed_paren _) (List.cons.inj hmore).2
    exact ⟨by rw [Relabel.expr, Relabel.expr, htree, htoken, htree'], (List.cons.inj hends).2⟩

theorem Expr.Spelled.readsBack (h : e.Spelled) : ReadsBack e := by
  induction e with
  | literal token => exact readsBack_literal h.1 h.2
  | unary op right ih => exact readsBack_unary h.1 h.2.1 (ih h.2.2)
  | binary left op right ihl ihr => exact readsBack_binary h.1 h.2.1 (ihl h.2.2.1) (ihr h.2.2.2)

/-- An expression starts with a digit or a parenthesis, and `print` with neither. -/
theorem shown_ne_print (h : e.Spelled) : e.shown ++ rest ≠ 'p' :: rest' := by
  intro heq
  cases e with
  | literal token =>
    obtain ⟨c, more, hlexeme, hnumeric⟩ := exists_numeric_start h.1 h.2
    rw [Expr.shown, hlexeme] at heq
    obtain ⟨rfl, -⟩ := List.cons.inj heq
    exact absurd hnumeric (by decide)
  | unary op right => cases (List.cons.inj heq).1
  | binary left op right => cases (List.cons.inj heq).1

theorem Stmt.shown_unique (hs : s.expr.Spelled) (ht : t.expr.Spelled)
    (h : s.shown ++ rest = t.shown ++ rest') :
    placeless.stmt s = placeless.stmt t ∧ rest = rest' := by
  have hended : ∀ {e d : Expr}, e.Spelled → d.Spelled →
      e.shown ++ ';' :: rest = d.shown ++ ';' :: rest' →
        placeless.expr e = placeless.expr d ∧ rest = rest' := by
    intro e d he hd heq
    obtain ⟨htree, hends⟩ := he.readsBack hd (closed_semicolon _) (closed_semicolon _) heq
    exact ⟨htree, (List.cons.inj hends).2⟩
  cases s with
  | expression e =>
    cases t with
    | expression d =>
      have heq : e.shown ++ ';' :: rest = d.shown ++ ';' :: rest' := by simpa [shown] using h
      obtain ⟨htree, hends⟩ := hended hs ht heq
      exact ⟨congrArg Stmt.expression htree, hends⟩
    | print _ d =>
      rw [shown, List.append_assoc] at h
      exact absurd h (shown_ne_print hs)
  | print keyword e =>
    cases t with
    | expression d =>
      rw [shown, shown, List.append_assoc d.shown] at h
      exact absurd h.symm (shown_ne_print ht)
    | print keyword' d =>
      have heq : e.shown ++ ';' :: rest = d.shown ++ ';' :: rest' := by simpa [shown] using h
      obtain ⟨htree, hends⟩ := hended hs ht heq
      exact ⟨congrArg (Stmt.print ⟨0, 0⟩) htree, hends⟩

theorem lines_cons (s : Stmt) (p : List Stmt) :
    ['\n'].intercalate ((s :: p).map Stmt.shown) =
      s.shown ++ if p = [] then [] else '\n' :: ['\n'].intercalate (p.map Stmt.shown) := by
  cases p <;> simp [List.intercalate_cons_cons]

theorem Stmt.shown_ne_nil (s : Stmt) : s.shown ≠ [] := by
  cases s <;> simp [shown]

/-- The lines of a program determine it. -/
theorem lines_unique (hp : ∀ s ∈ p, s.expr.Spelled) (hq : ∀ t ∈ q, t.expr.Spelled)
    (h : ['\n'].intercalate (p.map Stmt.shown) = ['\n'].intercalate (q.map Stmt.shown)) :
    p.map placeless.stmt = q.map placeless.stmt := by
  induction p generalizing q with
  | nil =>
    cases q with
    | nil => rfl
    | cons t q =>
      rw [lines_cons] at h
      simp [Stmt.shown_ne_nil] at h
  | cons s p ih =>
    cases q with
    | nil =>
      rw [lines_cons] at h
      simp [Stmt.shown_ne_nil] at h
    | cons t q =>
      rw [lines_cons, lines_cons] at h
      obtain ⟨hst, hrest⟩ := Stmt.shown_unique (hp s (by simp)) (hq t (by simp)) h
      have htail : p.map placeless.stmt = q.map placeless.stmt := by
        by_cases hpnil : p = [] <;> by_cases hqnil : q = []
        · rw [hpnil, hqnil]
        · simp [hpnil, hqnil] at hrest
        · simp [hpnil, hqnil] at hrest
        · rw [if_neg hpnil, if_neg hqnil] at hrest
          exact ih (fun r hr => hp r (List.mem_cons_of_mem s hr))
            (fun r hr => hq r (List.mem_cons_of_mem t hr)) (List.cons.inj hrest).2
      rw [List.map_cons, List.map_cons, hst, htail]

end Shown

section Same
variable {e d : Expr} {s t : Stmt} {p q : List Stmt}

/-- Equality compares lexemes only, but a lexeme that is spelled like its kind decides the kind. -/
theorem placeless_of_same (he : e.Spelled) (hd : d.Spelled)
    (h : Node.same e.toNode d.toNode = true) : placeless.expr e = placeless.expr d := by
  induction e generalizing d with
  | literal token =>
    cases d with
    | literal token' =>
      have hlexeme : token.lexeme = token'.lexeme := by simpa [Expr.toNode, Node.same] using h
      rw [Relabel.expr, Relabel.expr, placeless_of_lexeme he.2 hd.2 hlexeme]
    | _ => cases h
  | unary op right ih =>
    cases d with
    | unary op' right' =>
      obtain ⟨hlexeme, hsame⟩ : op.lexeme = op'.lexeme ∧
          Node.same right.toNode right'.toNode = true := by
        simpa [Expr.toNode, Node.same] using h
      rw [Relabel.expr, Relabel.expr, placeless_of_lexeme he.2.1 hd.2.1 hlexeme,
        ih he.2.2 hd.2.2 hsame]
    | _ => cases h
  | binary left op right ihl ihr =>
    cases d with
    | binary left' op' right' =>
      obtain ⟨⟨hlexeme, hsame⟩, hsame'⟩ : (op.lexeme = op'.lexeme ∧
          Node.same left.toNode left'.toNode = true) ∧
            Node.same right.toNode right'.toNode = true := by
        simpa [Expr.toNode, Node.same] using h
      rw [Relabel.expr, Relabel.expr, placeless_of_lexeme he.2.1 hd.2.1 hlexeme,
        ihl he.2.2.1 hd.2.2.1 hsame, ihr he.2.2.2 hd.2.2.2 hsame']
    | _ => cases h

theorem placeless_of_same_stmt (hs : s.expr.Spelled) (ht : t.expr.Spelled)
    (h : Node.same s.toNode t.toNode = true) : placeless.stmt s = placeless.stmt t := by
  cases s with
  | expression e =>
    cases t with
    | expression d => exact congrArg Stmt.expression (placeless_of_same hs ht h)
    | print _ _ => cases h
  | print _ e =>
    cases t with
    | expression _ => cases h
    | print _ d => exact congrArg (Stmt.print ⟨0, 0⟩) (placeless_of_same hs ht h)

theorem map_placeless_iff_same (hp : ∀ s ∈ p, s.expr.Spelled) (hq : ∀ t ∈ q, t.expr.Spelled) :
    p.map placeless.stmt = q.map placeless.stmt ↔
      List.Forall₂ (fun s t => Node.same s.toNode t.toNode = true) p q := by
  rw [map_eq_iff_forall₂]
  constructor
  · exact List.Forall₂.imp fun s t => same_of_placeless_stmt
  · intro h
    rw [List.forall₂_iff_zip] at h ⊢
    refine ⟨h.1, fun {s t} hmem => ?_⟩
    obtain ⟨hs, ht⟩ := List.of_mem_zip hmem
    exact placeless_of_same_stmt (hp s hs) (hq t ht) (h.2 hmem)

end Same

/-- Two programs read from texts, with trees within the levels, have the same rendered text exactly if
comparing them answers that they are equal; and then they run alike in either style. -/
theorem rendering_determines_program {source source' : String} {p q : List Stmt}
    (hp : Parser.parse (Lexer.tokenize source) = .ok p)
    (hq : Parser.parse (Lexer.tokenize source') = .ok q)
    (hplevels : ∀ s ∈ p, s.expr.height < Node.levels)
    (hqlevels : ∀ s ∈ q, s.expr.height < Node.levels) :
    ∃ text text', renderProgram? p = some text ∧ renderProgram? q = some text' ∧
      sameProgram? p q = some (decide (text = text')) ∧
      (text = text' → ∀ style, RunAlike style p q) := by
  have hspelled := spelled_of_parse hp
  have hspelled' := spelled_of_parse hq
  have hptext := renderProgram?_eq_shown hplevels
  have hqtext := renderProgram?_eq_shown hqlevels
  obtain ⟨answer, hanswer, hsame⟩ := exists_sameProgram? hplevels q
  have htext : String.ofList (['\n'].intercalate (p.map Stmt.shown)) =
      String.ofList (['\n'].intercalate (q.map Stmt.shown)) ↔
        p.map placeless.stmt = q.map placeless.stmt := by
    constructor
    · intro h
      exact lines_unique hspelled hspelled' (String.ofList_injective h)
    · intro h
      have hrendered := renderProgram?_eq_of_placeless h
      rw [hptext, hqtext] at hrendered
      exact Option.some.inj hrendered
  refine ⟨_, _, hptext, hqtext, ?_, ?_⟩
  · rw [hanswer]
    refine congrArg some ?_
    rw [Bool.eq_iff_iff, hsame, decide_eq_true_iff, htext, map_placeless_iff_same hspelled hspelled']
  · intro heq
    exact runAlike_of_placeless (htext.mp heq)

/-- A comment, a group and other places change neither the text nor how the program fails. -/
theorem rendering_determines_moved_program :
    let t (kind : Kind) (lexeme : String) (line col : Int) : Token := ⟨kind, lexeme, ⟨line, col⟩, none⟩
    let p := [Stmt.print ⟨1, 1⟩ (.binary (.literal (t .number "1" 1 7)) (t .less "<" 1 9)
      (.unary (t .minus "-" 1 11) (.literal (t .number "2" 1 12))))]
    let q := [Stmt.print ⟨2, 1⟩ (.binary (.literal (t .number "1" 2 8)) (t .less "<" 2 11)
      (.unary (t .minus "-" 2 12) (.literal (t .number "2" 2 13))))]
    Parser.parse (Lexer.tokenize "print 1 < -2;") = .ok p ∧
    Parser.parse (Lexer.tokenize "//\nprint (1) <-2;") = .ok q ∧
    (∀ s ∈ p, s.expr.height < Node.levels) ∧ (∀ s ∈ q, s.expr.height < Node.levels) ∧
    renderProgram? p = some "print (< 1 (- 2));" ∧
    renderProgram? q = some "print (< 1 (- 2));" ∧
    sameProgram? p q = some true ∧ ∀ style, RunAlike style p q := by
  intro t p q
  have hp : Parser.parse (Lexer.tokenize "print 1 < -2;") = .ok p := by decide +kernel
  have hq : Parser.parse (Lexer.tokenize "//\nprint (1) <-2;") = .ok q := by decide +kernel
  have hplevels : ∀ s ∈ p, s.expr.height < Node.levels := by decide
  have hqlevels : ∀ s ∈ q, s.expr.height < Node.levels := by decide
  have hptext : renderProgram? p = some "print (< 1 (- 2));" := rfl
  have hqtext : renderProgram? q = some "print (< 1 (- 2));" := rfl
  obtain ⟨text, text', htext, htext', hsame, hrun⟩ :=
    rendering_determines_program hp hq hplevels hqlevels
  obtain rfl : text = text' := by
    rw [hptext] at htext
    rw [hqtext, htext] at htext'
    exact Option.some.inj htext'
  exact ⟨hp, hq, hplevels, hqlevels, hptext, hqtext, by simpa using hsame, hrun rfl⟩

end Reckon
