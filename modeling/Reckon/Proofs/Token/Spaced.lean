import Reckon.Proofs.Token.Newline

/-! Lexemes written out with gaps between them. Each lexeme ends before the separator that follows it,
and a gap is skipped whole, so lexing gives the lexemes back, whatever the gaps are. -/
namespace Reckon.Lexer

def Separates (gap : List Char) : Prop := ∃ c ∈ gap.head?, c ∈ [' ', '\t', '\r', '\n']

/-- Lexemes, each with the gap after it. Only after the last one the gap may be empty, and may end in a
comment without a newline. -/
inductive Spaced : List (List Char × List Char) → Prop
  | nil : Spaced []
  | cons {lexeme gap items} : Gap items.isEmpty gap → Separates gap ∨ items = [] ∧ gap = [] →
      Spaced items → Spaced ((lexeme, gap) :: items)

def written (items : List (List Char × List Char)) : List Char :=
  items.flatMap fun x => x.1 ++ x.2

structure ReadAlone (t : Token) (text : List Char) : Prop where
  lexeme : t.lexeme = String.ofList text
  form : Form text t.kind
  known : t.kind ≠ .unknown
  faultless : t.error = none
  alone : tokenize (String.ofList text) = [{ t with pos := Pos.start }, Token.eofAt (Pos.counted text)]

variable {p : Pos} {last : Bool} {kind : Kind} {lexeme gap rest body : List Char}
  {items : List (List Char × List Char)}

@[simp] theorem written_cons (lexeme gap : List Char) (items : List (List Char × List Char)) :
    written ((lexeme, gap) :: items) = lexeme ++ (gap ++ written items) := by
  simp [written]

theorem written_of_isEmpty (h : items.isEmpty = true) : written items = [] := by
  rw [List.isEmpty_iff.mp h]
  rfl

theorem splitGap_comment (h : '\n' ∉ body) : splitGap true body = (body, []) := by
  induction body with
  | nil => rfl
  | cons c body ih =>
    obtain ⟨hc, hbody⟩ := not_or.mp (mt List.mem_cons.mpr h)
    have hcomment : (c != '\n') = true := by simpa using Ne.symm hc
    rw [splitGap, hcomment, ih hbody]
    rfl

/-- A gap is skipped whole. One that ends in a comment without a newline is the end of the text. -/
theorem Gap.skipped (h : Gap last gap) (hlast : last = true → rest = []) :
    splitGap false (gap ++ rest) = (gap ++ (splitGap false rest).1, (splitGap false rest).2) := by
  induction h with
  | nil => rfl
  | @space last c gap hc _ ih =>
    have hspace : isSpace c = true := by simpa [isSpace, or_assoc] using hc
    rw [List.cons_append, splitGap, if_pos hspace, ih hlast]
    · rfl
    · rintro after rfl
      exact absurd hc (by decide)
  | @comment last body gap hbody _ ih =>
    have hcomment : (splitGap true body).2 = [] := by rw [splitGap_comment hbody]
    have hskip := splitGap_newline_nil hcomment (gap ++ rest)
    simp only [List.cons_append, List.append_assoc, splitGap, hskip, ih hlast]
    rfl
  | @unended body hbody =>
    have hskip : splitGap false ('/' :: '/' :: body) = ('/' :: '/' :: body, []) := by
      rw [splitGap, splitGap_comment hbody]
      rfl
    rw [hlast rfl, List.append_nil, hskip]
    simp [splitGap]

theorem tokens_gap (h : Gap last gap) (hlast : last = true → rest = []) :
    tokens p (gap ++ rest) = tokens (p.past gap) rest :=
  tokens_of_splitGap (h.skipped hlast)

theorem separator_cases {c : Char} (h : c ∈ [' ', '\t', '\r', '\n']) :
    c = ' ' ∨ c = '\t' ∨ c = '\r' ∨ c = '\n' := by
  simpa using h

theorem breaks_separator : ∀ c ∈ [' ', '\t', '\r', '\n'], Breaks c := by
  intro c hc
  obtain rfl | rfl | rfl | rfl := separator_cases hc <;> unfold Breaks <;> decide

theorem Separates.append (h : Separates gap) (rest : List Char) : Separates (gap ++ rest) := by
  obtain ⟨c, hc, hmem⟩ := h
  cases gap with
  | nil => cases hc
  | cons d gap => exact ⟨c, hc, hmem⟩

theorem separator_apart : ∀ c ∈ [' ', '\t', '\r', '\n'], isLetter c = false ∧ isDigit c = false ∧
    c ≠ '"' ∧ (∀ y ∈ Kind.punctuation, y.1 ≠ c) ∧ ∀ y ∈ Kind.joinable, y.1 ≠ c := by
  intro c hc
  obtain rfl | rfl | rfl | rfl := separator_cases hc <;> decide

theorem Form.not_separator {c : Char} {tail : List Char} (h : Form (c :: tail) kind) :
    c ∉ [' ', '\t', '\r', '\n'] := by
  intro hc
  obtain ⟨hletter, hdigit, hquote, hpunctuation, hjoinable⟩ := separator_apart c hc
  obtain ⟨y, hy, heq, -⟩ | ⟨y, hy, heq, -⟩ | ⟨heq, -⟩ | ⟨hl, -⟩ | ⟨hd, -⟩ := h.tail_cases
  · exact hpunctuation y hy heq
  · exact hjoinable y hy heq
  · exact hquote heq
  · simp [hletter] at hl
  · simp [hdigit] at hd

/-- A slash alone starts no comment where a separator follows it. -/
theorem Form.not_startsGap (h : Form lexeme kind) (hrest : Separates rest ∨ rest = []) :
    ¬ StartsGap (lexeme ++ rest) := by
  obtain ⟨c, tail, rfl⟩ := List.exists_cons_of_ne_nil h.ne_nil
  by_cases hc : c = '/'
  · subst hc
    obtain rfl := @Form.tail_punctuation _ _ ('/', .slash) (by decide) h
    rintro (⟨x, hx, hmem⟩ | ⟨after, heq⟩)
    · obtain rfl : '/' = x := by simpa using hx
      exact absurd hmem (by decide)
    · obtain rfl : rest = '/' :: after := by simpa using heq.symm
      obtain ⟨x, hx, hmem⟩ | hnil := hrest
      · obtain rfl : '/' = x := by simpa using hx
        exact absurd hmem (by decide)
      · cases hnil
  · exact not_startsGap_cons h.not_separator hc

/-- A lexeme and the gap after it are one token and nothing else. -/
theorem tokens_lexeme (h : Form lexeme kind) (hgap : Gap last gap) (hlast : last = true → rest = [])
    (hsep : Separates (gap ++ rest) ∨ gap ++ rest = []) (p : Pos) :
    tokens p (lexeme ++ (gap ++ rest)) =
      ⟨kind, String.ofList lexeme, p, none⟩ :: tokens (p.past (lexeme ++ gap)) rest := by
  have hbreaks : ∀ x ∈ (gap ++ rest).head?, Breaks x := by
    intro x hx
    obtain ⟨c, hc, hmem⟩ | hnil := hsep
    · obtain rfl : c = x := Option.some.inj (hc.symm.trans hx)
      exact breaks_separator c hmem
    · rw [hnil] at hx
      cases hx
  rw [tokens_form h (h.not_startsGap hsep) hbreaks, tokens_gap hgap hlast, Pos.past_append]

theorem readAlone_of_form (h : Form lexeme kind) (p : Pos) :
    ReadAlone ⟨kind, String.ofList lexeme, p, none⟩ lexeme where
  lexeme := rfl
  form := h
  known := h.kind_ne.2
  faultless := rfl
  alone := by
    have htokens := tokens_lexeme h (@Gap.nil true) (fun _ => rfl) (.inr rfl) Pos.start
    simp only [List.append_nil, tokens_nil, Pos.start_past] at htokens
    rw [tokenize, String.toList_ofList, htokens]

theorem tokens_written (hspaced : Spaced items) (hforms : ∀ x ∈ items, ∃ kind, Form x.1 kind)
    (p : Pos) : ∃ front, tokens p (written items) = front ++ [Token.eofAt (p.past (written items))] ∧
      List.Forall₂ (fun t x => ReadAlone t x.1) front items := by
  induction hspaced generalizing p with
  | nil => exact ⟨[], tokens_nil, .nil⟩
  | @cons lexeme gap items hgap hsep _ ih =>
    obtain ⟨kind, hform⟩ := hforms _ List.mem_cons_self
    obtain ⟨front, htokens, halone⟩ :=
      ih (fun x hx => hforms x (List.mem_cons_of_mem _ hx)) (p.past (lexeme ++ gap))
    have hapart : Separates (gap ++ written items) ∨ gap ++ written items = [] := by
      obtain hsep | ⟨rfl, rfl⟩ := hsep
      · exact .inl (hsep.append _)
      · exact .inr rfl
    refine ⟨⟨kind, String.ofList lexeme, p, none⟩ :: front, ?_, .cons (readAlone_of_form hform p) halone⟩
    rw [written_cons, tokens_lexeme hform hgap written_of_isEmpty hapart, htokens]
    simp

/-- Lexemes that are written with gaps between them are read back one by one, each as on its own. -/
theorem written_lexemes_read_back {lead : List Char} {items : List (List Char × List Char)}
    (hlead : Gap items.isEmpty lead) (hspaced : Spaced items)
    (hforms : ∀ x ∈ items, ∃ kind, Form x.1 kind) :
    ∃ front, tokenize (String.ofList (lead ++ written items)) =
        front ++ [Token.eofAt (Pos.counted (lead ++ written items))] ∧
      List.Forall₂ (fun t x => ReadAlone t x.1) front items := by
  obtain ⟨front, htokens, halone⟩ := tokens_written hspaced hforms (Pos.start.past lead)
  refine ⟨front, ?_, halone⟩
  rw [tokenize, String.toList_ofList, tokens_gap hlead written_of_isEmpty, htokens, ← Pos.past_append,
    Pos.start_past]

/-- A slash before a comment, a number before a line end, a string that holds a comment, and a sign of
equality before a comment that the end of the text ends. -/
theorem written_slash_reads_back :
    let lead := ['/', '/', '1', '\n']
    let items := [(['/'], [' ', '/', '/', '2', '\n']), (['1', '.', '5'], ['\n']),
      (['"', '/', '/', '"'], ['\t']), (['='], [' ', '/', '/', '='])]
    Gap items.isEmpty lead ∧ Spaced items ∧ (∀ x ∈ items, ∃ kind, Form x.1 kind) ∧
      ∃ front, tokenize (String.ofList (lead ++ written items)) =
          front ++ [Token.eofAt (Pos.counted (lead ++ written items))] ∧
        List.Forall₂ (fun t x => ReadAlone t x.1) front items := by
  intro lead items
  have hlead : Gap items.isEmpty lead := @Gap.comment false ['1'] [] (by decide) .nil
  have hspaced : Spaced items := by
    refine .cons (.space (by decide) (@Gap.comment false ['2'] [] (by decide) .nil)) ?_ ?_
    · exact .inl ⟨' ', rfl, by decide⟩
    refine .cons (.space (by decide) .nil) (.inl ⟨'\n', rfl, by decide⟩) ?_
    refine .cons (.space (by decide) .nil) (.inl ⟨'\t', rfl, by decide⟩) ?_
    refine .cons (.space (by decide) (@Gap.unended ['='] (by decide))) ?_ .nil
    exact .inl ⟨' ', rfl, by decide⟩
  have hforms : ∀ x ∈ items, ∃ kind, Form x.1 kind := by
    simp only [items, List.forall_mem_cons]
    refine ⟨⟨.slash, .mark (by decide)⟩, ⟨.number, ?_⟩, ⟨.string, ?_⟩, ⟨.equal, .mark (by decide)⟩, ?_⟩
    · exact @Form.fraction ['1'] ['5'] (by simp [IsDigits]; decide) (by simp [IsDigits]; decide)
    · exact @Form.string ['/', '/'] (by decide)
    · simp
  exact ⟨hlead, hspaced, hforms, written_lexemes_read_back hlead hspaced hforms⟩

end Reckon.Lexer
