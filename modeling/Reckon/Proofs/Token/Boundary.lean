import Reckon.Proofs.Token.Layout

/-! Where tokens end. A token that is followed by a character which no token goes on with is read
whole and alone. -/
namespace Reckon.Lexer

variable {c x : Char} {text tail rest after : List Char} {kind : Kind} {p : Pos}

def Breaks (x : Char) : Prop := x ≠ '=' ∧ x ≠ '.' ∧ isLetter x = false ∧ isDigit x = false

theorem Form.not_breaks (h : Form (c :: tail) kind) (hc : c ≠ '"') : ∀ x ∈ tail, ¬ Breaks x := by
  rintro x hx ⟨hequal, hpoint, hletter, hdigit⟩
  obtain ⟨y, hy, -, rfl⟩ | ⟨y, hy, -, rfl | rfl⟩ | ⟨hquote, -⟩ | ⟨-, htail⟩ | ⟨-, htail⟩ := h.tail_cases
  · simp at hx
  · simp at hx
  · exact hequal (List.mem_singleton.mp hx)
  · exact hc hquote
  · simpa [hletter, hdigit] using htail x hx
  · obtain hwhole | ⟨digits, more, hdigits, hmore, rfl⟩ := htail
    · simpa [hdigit] using hwhole x hx
    · simp only [List.mem_append, List.mem_cons] at hx
      obtain hx | rfl | hx := hx
      · simpa [hdigit] using hdigits x hx
      · exact hpoint rfl
      · cases more with
        | nil => exact absurd hmore id
        | cons d more =>
          cases hx with
          | head => simpa [hdigit] using hmore.1
          | tail _ hx => simpa [hdigit] using hmore.2 x hx

/-- A text that starts like another, and is longer, holds the character after it. -/
theorem mem_of_longer {p : List Char} (h : p <+: text ++ x :: rest) (hlen : text.length < p.length) :
    ∃ more, p = text ++ x :: more := by
  obtain ⟨s, hs⟩ := h
  obtain ⟨t, rfl⟩ : text <+: p :=
    List.prefix_of_prefix_length_le (List.prefix_append _ _) ⟨s, hs⟩ (by omega)
  cases t with
  | nil => simp at hlen
  | cons y more =>
    have heq : y :: more ++ s = x :: rest := by simpa [List.append_assoc] using hs
    obtain ⟨rfl, -⟩ := List.cons.inj heq
    exact ⟨more, rfl⟩

/-- No string goes on after its closing quote: that quote would stand inside the longer one. -/
theorem Form.string_ends {more : List Char} {k : Kind} (h : Form ('"' :: tail) kind)
    (hlonger : Form ('"' :: (tail ++ x :: more)) k) : False := by
  obtain ⟨body, -, rfl⟩ := h.tail_string
  obtain ⟨body', hfree, heq⟩ := hlonger.tail_string
  have hmem : '"' ∈ body' := by
    have hinit := congrArg List.dropLast heq
    rw [List.dropLast_concat] at hinit
    rw [← hinit]
    cases more using List.reverseRecOn <;> simp
  exact hfree hmem

theorem Form.longest (h : Form text kind) (hrest : ∀ x ∈ rest.head?, Breaks x) {p : List Char}
    {k : Kind} (hp : Form p k) (hpre : p <+: text ++ rest) : p.length ≤ text.length := by
  cases rest with
  | nil => simpa using hpre.length_le
  | cons x rest =>
    have hx : Breaks x := hrest x rfl
    by_contra hlen
    obtain ⟨more, rfl⟩ := mem_of_longer hpre (Nat.lt_of_not_le hlen)
    obtain ⟨c, tail, rfl⟩ := List.exists_cons_of_ne_nil h.ne_nil
    by_cases hc : c = '"'
    · subst hc
      exact h.string_ends hp
    · exact hp.not_breaks hc x (by simp) hx

/-- At the start of a text there is one longest piece at most. -/
theorem Longest.unique {ahead s t : List Char} {q r : Piece} (hq : Longest ahead q)
    (hr : Longest ahead r) (hs : q.text ++ s = ahead) (ht : r.text ++ t = ahead) : q = r := by
  have hq' : q.text <+: ahead := ⟨s, hs⟩
  have hr' : r.text <+: ahead := ⟨t, ht⟩
  cases q with
  | proper kind text =>
    cases r with
    | proper kind' text' =>
      have hlen := Nat.le_antisymm (hr.2 _ _ hq.1 hq') (hq.2 _ _ hr.1 hr')
      obtain rfl : text = text' := (List.append_inj (hs.trans ht.symm) hlen).1
      obtain rfl : kind = kind' := hq.1.kindOf_eq.symm.trans hr.1.kindOf_eq
      rfl
    | openString _ => exact absurd hq' (hr.1 _ _ hq.1)
    | stray _ => exact absurd hq' (hr.1 _ _ hq.1)
  | openString text =>
    cases r with
    | proper _ _ => exact absurd hr' (hq.1 _ _ hr.1)
    | openString _ => rw [hq.2.2, hr.2.2]
    | stray x => exact absurd (Option.some.inj (hr.2.1.symm.trans hq.2.1)) hr.2.2
  | stray x =>
    cases r with
    | proper _ _ => exact absurd hr' (hq.1 _ _ hr.1)
    | openString _ => exact absurd (Option.some.inj (hq.2.1.symm.trans hr.2.1)) hq.2.2
    | stray y => rw [Option.some.inj (hq.2.1.symm.trans hr.2.1)]

theorem read_eq_of_longest {piece : Piece} {left : List Char} (h : Longest (c :: rest) piece)
    (htext : piece.text ++ left = c :: rest) : Piece.read c rest = (piece, left) := by
  have happend := Piece.read_append c rest
  have hpiece := (read_longest c rest).unique h happend htext
  rw [hpiece, ← htext] at happend
  exact Prod.ext hpiece (List.append_cancel_left happend)

theorem read_form (h : Form (c :: tail) kind) (hrest : ∀ x ∈ rest.head?, Breaks x) :
    Piece.read c (tail ++ rest) = (.proper kind (c :: tail), rest) := by
  refine read_eq_of_longest ⟨h, ?_⟩ rfl
  intro p k hp hpre
  exact h.longest hrest hp hpre

theorem not_startsGap_cons (hspace : c ∉ [' ', '\t', '\r', '\n']) (hslash : c ≠ '/') :
    ¬ StartsGap (c :: rest) := by
  rintro (⟨x, hx, hmem⟩ | ⟨after, heq⟩)
  · obtain rfl : c = x := by simpa using hx
    exact hspace hmem
  · exact hslash (List.cons.inj heq).1.symm

theorem splitGap_of_not_startsGap (h : ¬ StartsGap text) : splitGap false text = ([], text) := by
  cases text with
  | nil => rfl
  | cons c rest =>
    have hspace : isSpace c = false := by
      apply Bool.eq_false_iff.mpr
      intro hc
      refine h (.inl ⟨c, rfl, ?_⟩)
      simpa [isSpace, or_assoc] using hc
    have hcomment : ∀ after, c = '/' → rest = '/' :: after → False := by
      rintro after rfl rfl
      exact h (.inr ⟨after, rfl⟩)
    rw [splitGap, hspace]
    · rfl
    · exact hcomment

theorem tokens_form (h : Form text kind) (hgap : ¬ StartsGap (text ++ rest))
    (hrest : ∀ x ∈ rest.head?, Breaks x) :
    tokens p (text ++ rest) = ⟨kind, String.ofList text, p, none⟩ :: tokens (p.past text) rest := by
  obtain ⟨c, tail, rfl⟩ := List.exists_cons_of_ne_nil h.ne_nil
  have hsplit := splitGap_of_not_startsGap hgap
  have hahead : (splitGap false (c :: tail ++ rest)).2 = c :: (tail ++ rest) := by rw [hsplit]; rfl
  rw [tokens_piece hahead, hsplit, read_form h hrest]
  rfl

theorem tokens_mark (h : (c, kind) ∈ Kind.punctuation) (hc : c ≠ '/') (p : Pos) (rest : List Char) :
    tokens p (c :: rest) = ⟨kind, String.ofList [c], p, none⟩ :: tokens (p.after c) rest := by
  have hspace : ∀ y ∈ Kind.punctuation, y.1 ∉ [' ', '\t', '\r', '\n'] := by decide
  have hlookup : ∀ y ∈ Kind.punctuation, Kind.punctuation.lookup y.1 = some y.2 := by decide
  have hsplit : splitGap false (c :: rest) = ([], c :: rest) :=
    splitGap_of_not_startsGap (not_startsGap_cons (hspace _ h) hc)
  have hread : Piece.read c rest = (.proper kind [c], rest) := by
    simp [Piece.read, hlookup _ h]
  have hahead : (splitGap false (c :: rest)).2 = c :: rest := by rw [hsplit]
  rw [tokens_piece hahead, hsplit, hread]
  rfl

theorem tokens_nil : tokens p [] = [Token.eofAt p] := by
  rw [tokens_last rfl]
  rfl

end Reckon.Lexer
