import Reckon.Proofs.Grammar.Recognition
import Reckon.Proofs.Token.Boundary
import Reckon.Proofs.Token.Taking

/-! A newline between two texts. A gap runs through it, a comment ends at it, and of the tokens only a
string goes across it; so if no string is left open before it, the tokens are those of the two texts,
one after the other. -/
namespace Reckon

def Token.Unterminated (t : Token) : Prop :=
  t.kind = .unknown ∧ t.error = some "Unterminated string"

namespace Lexer
variable {p : Pos} {c : Char} {text rest gap : List Char} {inComment : Bool}

theorem breaks_newline : Breaks '\n' := by
  unfold Breaks
  decide

theorem Form.prefix_of_newline {q after : List Char} {kind : Kind} (h : Form q kind) (hc : c ≠ '"')
    (hpre : q <+: c :: rest ++ '\n' :: after) : q <+: c :: rest := by
  by_cases hlen : q.length ≤ (c :: rest).length
  · exact List.prefix_of_prefix_length_le hpre (List.prefix_append _ _) hlen
  · obtain ⟨more, rfl⟩ := mem_of_longer hpre (Nat.lt_of_not_le hlen)
    exact absurd breaks_newline (h.not_breaks hc '\n' (by simp))

/-- A piece that is longest in a text is so before a newline, unless it is an open string. -/
theorem Longest.newline {piece : Piece} (h : Longest (c :: rest) piece)
    (htext : piece.text <+: c :: rest) (hopen : ∀ s, piece ≠ .openString s) (after : List Char) :
    Longest (c :: rest ++ '\n' :: after) piece := by
  cases piece with
  | openString s => exact absurd rfl (hopen s)
  | stray x =>
    obtain ⟨hnone, hhead, hx⟩ := h
    obtain rfl : c = x := by simpa using hhead
    exact ⟨fun q k hq hpre => hnone q k hq (hq.prefix_of_newline hx hpre), rfl, hx⟩
  | proper kind text =>
    refine ⟨h.1, fun q k hq hpre => ?_⟩
    by_cases hc : c = '"'
    · subst hc
      obtain ⟨left, hleft⟩ := htext
      obtain ⟨tail, rfl, hform, -⟩ := Form.of_prefix h.1 ⟨left, hleft⟩
      by_contra hlen
      rw [← hleft, List.append_assoc] at hpre
      obtain ⟨x, more, rfl⟩ : ∃ x more, q = '"' :: tail ++ x :: more := by
        cases left with
        | nil => exact ⟨_, mem_of_longer hpre (Nat.lt_of_not_le hlen)⟩
        | cons y left => exact ⟨y, mem_of_longer hpre (Nat.lt_of_not_le hlen)⟩
      exact hform.string_ends hq
    · exact h.2 q k hq (hq.prefix_of_newline hc hpre)

theorem read_newline (hopen : ∀ s, (Piece.read c rest).1 ≠ .openString s) (after : List Char) :
    Piece.read c (rest ++ '\n' :: after) =
      ((Piece.read c rest).1, (Piece.read c rest).2 ++ '\n' :: after) := by
  have happend := Piece.read_append c rest
  refine read_eq_of_longest ((read_longest c rest).newline ⟨_, happend⟩ hopen after) ?_
  rw [← List.append_assoc, happend]
  rfl

/-- A newline does not make a comment of what is none. -/
theorem not_comment_newline (h : ∀ r, c = '/' → text = '/' :: r → False) (after : List Char) :
    ∀ r, c = '/' → text ++ '\n' :: after = '/' :: r → False := by
  rintro r hc heq
  cases text with
  | nil => exact absurd (List.cons.inj heq).1 (by decide)
  | cons d text => exact h text hc (by rw [(List.cons.inj heq).1])

theorem splitGap_newline_cons (h : (splitGap inComment text).2 = c :: rest) (after : List Char) :
    splitGap inComment (text ++ '\n' :: after) =
      ((splitGap inComment text).1, c :: rest ++ '\n' :: after) := by
  fun_induction splitGap inComment text with
  | case1 inComment => cases h
  | case2 d text ih =>
    rw [List.cons_append, splitGap, ih h]
    rfl
  | case3 text ih =>
    rw [List.cons_append, List.cons_append, splitGap, ih h]
    rfl
  | case4 d text hcomment hd ih =>
    rw [List.cons_append, splitGap, if_pos hd, ih h]
    · rfl
    · exact not_comment_newline hcomment after
  | case5 d text hcomment hd =>
    cases h
    rw [List.cons_append, splitGap, if_neg hd]
    exact not_comment_newline hcomment after

theorem splitGap_newline_nil (h : (splitGap inComment text).2 = []) (after : List Char) :
    splitGap inComment (text ++ '\n' :: after) =
      (text ++ '\n' :: (splitGap false after).1, (splitGap false after).2) := by
  fun_induction splitGap inComment text with
  | case1 inComment => cases inComment <;> rfl
  | case2 d text ih =>
    rw [List.cons_append, splitGap, ih h]
    rfl
  | case3 text ih =>
    rw [List.cons_append, List.cons_append, splitGap, ih h]
    rfl
  | case4 d text hcomment hd ih =>
    rw [List.cons_append, splitGap, if_pos hd, ih h]
    · rfl
    · exact not_comment_newline hcomment after
  | case5 d text hcomment hd => cases h

/-- What is skipped before the gap of `rest` is skipped before its tokens. -/
theorem tokens_of_splitGap
    (h : splitGap false text = (gap ++ (splitGap false rest).1, (splitGap false rest).2)) :
    tokens p text = tokens (p.past gap) rest := by
  have htext := splitGap_append false text
  have hrest := splitGap_append false rest
  rw [h, List.append_assoc, hrest] at htext
  cases hahead : (splitGap false rest).2 with
  | nil =>
    rw [tokens_last hahead, tokens_last (by rw [h, hahead]), ← htext, Pos.past_append]
  | cons c ahead =>
    rw [tokens_piece hahead, tokens_piece (by rw [h, hahead]), h, Pos.past_append]

theorem tokens_ne_nil (p : Pos) (text : List Char) : tokens p text ≠ [] := by
  cases h : (splitGap false text).2 with
  | nil => simp [tokens_last h]
  | cons c rest => simp [tokens_piece h]

/-- A newline is a clean cut, unless a string is open before it. -/
theorem tokens_newline (hopen : ∀ t ∈ tokens p text, ¬ t.Unterminated) (after : List Char) :
    tokens p (text ++ '\n' :: after) =
      (tokens p text).dropLast ++ tokens (p.past (text ++ ['\n'])) after := by
  induction p, text using tokens.induct with
  | case1 p text h =>
    have hsplit := splitGap_newline_nil h after
    rw [tokens_last h]
    refine tokens_of_splitGap ?_
    simpa using hsplit
  | case2 p text start c rest h found hshorter ih =>
    have hclosed : ∀ s, (Piece.read c rest).1 ≠ .openString s := by
      intro s hs
      refine hopen _ (by rw [tokens_piece h]; exact List.mem_cons_self) ?_
      rw [hs]
      exact ⟨rfl, rfl⟩
    have hmore := ih fun t ht => hopen t (by rw [tokens_piece h]; exact List.mem_cons_of_mem _ ht)
    have hsplit := splitGap_newline_cons h after
    have hahead : (splitGap false (text ++ '\n' :: after)).2 = c :: (rest ++ '\n' :: after) := by
      rw [hsplit]
      rfl
    have hplace : (start.past found.1.text).past (found.2 ++ ['\n']) = p.past (text ++ ['\n']) := by
      have htext := splitGap_append false text
      have hread := Piece.read_append c rest
      rw [h, ← hread] at htext
      rw [← htext]
      simp [start, found]
    rw [tokens_piece hahead, tokens_piece h, hsplit, read_newline hclosed, hmore, hplace]
    rw [List.dropLast_cons_of_ne_nil (tokens_ne_nil _ _)]
    rfl

/-- The tokens of a text end with the one token of kind `eof` among them. -/
theorem tokenize_eq (source : String) :
    tokenize source = Parser.body (tokenize source) ++ [Parser.stop (tokenize source)] ∧
      Parser.stop (tokenize source) = Token.eofAt (Pos.counted source.toList) := by
  obtain ⟨cuts, final, h⟩ := exists_layout (Q := fun before cut _ => Exact before cut)
    (fun before _ _ _ h => cutAt_exact before h) [] source.toList
  have htokens : tokenize source =
      cuts.map Cut.token ++ [Token.eofAt (Pos.counted source.toList)] := h.tokens_eq
  have hfront : ∀ t ∈ cuts.map Cut.token, t.kind ≠ .eof := by
    intro t ht
    obtain ⟨cut, hcut, rfl⟩ := List.mem_map.mp ht
    obtain ⟨left, right, rfl⟩ := List.append_of_mem hcut
    exact (h.each left cut right rfl).not_end
  rw [htokens, Parser.body_of_eof hfront rfl, Parser.stop_of_eof hfront rfl]
  exact ⟨rfl, rfl⟩

theorem dropLast_tokenize (source : String) :
    (tokenize source).dropLast = Parser.body (tokenize source) := by
  have h := (tokenize_eq source).1
  generalize Parser.body (tokenize source) = u at h
  rw [h, List.dropLast_concat]

/-- A text that leaves no string open can be followed by another one on a new line. -/
theorem tokenize_cut {source : String} (hopen : ∀ t ∈ tokenize source, ¬ t.Unterminated)
    (after : String) :
    tokenize (source ++ "\n" ++ after) =
      (tokenize source).dropLast ++ tokens (Pos.counted (source.toList ++ ['\n'])) after.toList := by
  have htext : (source ++ "\n" ++ after).toList = source.toList ++ '\n' :: after.toList := by simp
  rw [tokenize, htext, tokens_newline hopen, Pos.start_past]
  rfl

/-- A text without unknown tokens leaves no string open. -/
theorem tokenize_newline {source : String}
    (hknown : ∀ t ∈ Parser.body (tokenize source), t.kind ≠ .unknown) (after : String) :
    tokenize (source ++ "\n" ++ after) =
      Parser.body (tokenize source) ++ tokens (Pos.counted (source.toList ++ ['\n'])) after.toList := by
  have hopen : ∀ t ∈ tokenize source, ¬ t.Unterminated := by
    intro t ht hunterminated
    obtain ⟨htokens, hstop⟩ := tokenize_eq source
    rw [htokens] at ht
    cases List.mem_append.mp ht with
    | inl ht => exact hknown t ht hunterminated.1
    | inr ht =>
      have hkind := hunterminated.1
      rw [List.mem_singleton.mp ht, hstop] at hkind
      cases hkind
  rw [tokenize_cut hopen, dropLast_tokenize]

/-- A cursor at the start of a text takes its tokens, counted from where it says it stands. -/
theorem tokens_from_start (text : List Char) (p : Pos) :
    (⟨text, 0, p⟩ : Cursor).tokens.1 = .ok (tokens p text) := by
  have hahead : (⟨text, 0, p⟩ : Cursor).ahead? = some ([], text) :=
    Cursor.ahead?_visible (Int.le_refl 0)
  simp only [Cursor.tokens, hahead, Cursor.tokensOf]

theorem counted_after_newline (text : List Char) :
    Pos.counted (text ++ ['\n']) = ⟨2 + text.count '\n', 1⟩ := by
  simp [Pos.counted]
  omega

/-- Two texts on either side of a newline are lexed apart, faults and all, unless the first one leaves
a string open: its tokens without the end, then those that a cursor on the next line takes. -/
theorem newline_parts_texts {source : String} (hopen : ∀ t ∈ tokenize source, ¬ t.Unterminated)
    (after : String) :
    ∃ front more,
      tokenize source = front ++ [Token.eofAt (Pos.counted source.toList)] ∧
      (⟨after.toList, 0, ⟨2 + source.toList.count '\n', 1⟩⟩ : Cursor).tokens.1 = .ok more ∧
      tokenize (source ++ "\n" ++ after) = front ++ more := by
  obtain ⟨htokens, hstop⟩ := tokenize_eq source
  have hcut := tokenize_cut hopen after
  rw [counted_after_newline, dropLast_tokenize] at hcut
  exact ⟨Parser.body (tokenize source), _, by rw [← hstop]; exact htokens, tokens_from_start _ _, hcut⟩

/-- A stray character, and a comment that the newline ends. -/
theorem newline_parts_comment_from_string :
    (∀ t ∈ tokenize "1 # //2", ¬ t.Unterminated) ∧
    ∃ front more,
      tokenize "1 # //2" = front ++ [Token.eofAt ⟨1, 8⟩] ∧
      (⟨['"', '='], 0, ⟨2, 1⟩⟩ : Cursor).tokens.1 = .ok more ∧
      tokenize ("1 # //2" ++ "\n" ++ "\"=") = front ++ more := by
  have hopen : ∀ t ∈ tokenize "1 # //2", ¬ t.Unterminated := by
    have htokens : tokenize "1 # //2" = [⟨.number, "1", ⟨1, 1⟩, none⟩,
        ⟨.unknown, "", ⟨1, 3⟩, some "Unexpected character '#'"⟩, Token.eofAt ⟨1, 8⟩] := by decide +kernel
    simp [htokens, Token.Unterminated, Token.eofAt]
  exact ⟨hopen, newline_parts_texts hopen "\"="⟩

end Lexer
end Reckon
