import Reckon.Proofs.Token.Layout
import Reckon.Proofs.Token.Scan

/-! Taking tokens from any place. What is ahead of a cursor is taken one character after the other: the
characters at negative positions first, then the text, which ends. Each token but the last takes at
least one of them, so taking tokens ends too. -/
namespace Reckon
open Lexer

theorem Piece.text_ne_nil (c : Char) (rest : List Char) : (read c rest).1.text ≠ [] := by
  have hlongest := read_longest c rest
  generalize (read c rest).1 = piece at hlongest
  cases piece with
  | proper kind text => exact hlongest.1.ne_nil
  | openString text =>
    rw [hlongest.2.2]
    simp [Piece.text]
  | stray x => simp [Piece.text]

theorem Piece.token_kind (c : Char) (rest : List Char) (p : Pos) :
    ((read c rest).1.token p).kind ≠ .eof := by
  have hlongest := read_longest c rest
  generalize (read c rest).1 = piece at hlongest
  cases piece with
  | proper kind text => exact hlongest.1.kind_ne.1
  | openString text => simp [Piece.token]
  | stray x => simp [Piece.token]

theorem Piece.read_text (c : Char) (rest : List Char) :
    ∃ tail, (read c rest).1.text = c :: tail ∧ tail ++ (read c rest).2 = rest := by
  have happend := read_append c rest
  obtain ⟨x, tail, htext⟩ := List.exists_cons_of_ne_nil (text_ne_nil c rest)
  rw [htext] at happend
  obtain ⟨rfl, htail⟩ := List.cons.inj happend
  exact ⟨tail, htext, htail⟩

theorem Piece.closeString_text (opened rest : List Char) :
    ∃ tail, (closeString opened rest).1.text = opened ++ tail ∧
      tail ++ (closeString opened rest).2 = rest := by
  have hsplit : rest.takeWhile (· != '"') ++ rest.dropWhile (· != '"') = rest :=
    List.takeWhile_append_dropWhile
  unfold closeString
  split
  · exact ⟨rest, rfl, List.append_nil rest⟩
  · rename_i quote after h
    refine ⟨_, rfl, ?_⟩
    rwa [h, List.append_cons] at hsplit

theorem Piece.closeString_kind (opened rest : List Char) (p : Pos) :
    ((closeString opened rest).1.token p).kind ≠ .eof := by
  unfold closeString
  split <;> simp [Piece.token]

namespace Cursor

inductive Reads : Cursor → List Char → Cursor → Prop
  | nil {c} : Reads c [] c
  | cons {c d e x text} : c.next = (.ok x, d) → Reads d text e → Reads c (x :: text) e

inductive Takes : Cursor → List Token → Cursor → Prop
  | last {c d t} : c.nextToken = (.ok t, d) → t.kind = .eof → Takes c [t] d
  | more {c d e t ts} : c.nextToken = (.ok t, d) → t.kind ≠ .eof → Takes d ts e → Takes c (t :: ts) e

variable {c d : Cursor} {p : Pos} {x : Char} {t : Token} {ts taken : List Token} {n : Nat}
  {text rest hidden visible : List Char}

section Gaps

theorem splitGap_spaces (text : List Char) :
    splitGap false text =
      (splitGap false (text.dropWhile isSpace)).map (text.takeWhile isSpace ++ ·) id := by
  induction text with
  | nil => rfl
  | cons x rest ih =>
    by_cases hx : isSpace x = true
    · have hslash : x ≠ '/' := by
        rintro rfl
        cases hx
      rw [List.dropWhile_cons_of_pos hx, List.takeWhile_cons_of_pos hx, splitGap]
      · rw [if_pos hx, ih]
        rfl
      · exact fun _ hx _ => hslash hx
    · rw [List.dropWhile_cons_of_neg hx, List.takeWhile_cons_of_neg hx]
      rfl

theorem skipSpaces_shown (h : c.ahead? = some ([], visible)) :
    c.skipSpaces = c.pass (visible.takeWhile isSpace) := by
  rw [skipSpaces, visible_shown h]

theorem ahead?_skipSpaces (h : c.ahead? = some ([], visible)) :
    (c.pass (visible.takeWhile isSpace)).ahead? = some ([], visible.dropWhile isSpace) :=
  ahead?_pass_shown (by rwa [List.takeWhile_append_dropWhile])

def afterLine (text : List Char) : List Char :=
  (text.dropWhile (· != '\n')).drop 1

theorem firstLine_append (text : List Char) : firstLine text ++ afterLine text = text := by
  rw [firstLine, afterLine, List.append_assoc, List.take_append_drop, List.takeWhile_append_dropWhile]

theorem firstLine_cons (hx : x ≠ '\n') : firstLine (x :: rest) = x :: firstLine rest := by
  simp [firstLine, hx]

theorem afterLine_cons (hx : x ≠ '\n') : afterLine (x :: rest) = afterLine rest := by
  simp [afterLine, hx]

theorem splitGap_inComment (text : List Char) :
    splitGap true text = (splitGap false (afterLine text)).map (firstLine text ++ ·) id := by
  induction text with
  | nil => rfl
  | cons x rest ih =>
    rw [splitGap]
    by_cases hx : x = '\n'
    · simp [hx, firstLine, afterLine]
    · have hother : (x != '\n') = true := by simpa using hx
      rw [hother, ih, firstLine_cons hx, afterLine_cons hx]
      rfl

theorem splitGap_comment (rest : List Char) :
    splitGap false ('/' :: '/' :: rest) =
      (splitGap false (afterLine ('/' :: '/' :: rest))).map (firstLine ('/' :: '/' :: rest) ++ ·) id := by
  rw [splitGap, splitGap_inComment]
  simp only [firstLine_cons (show '/' ≠ '\n' by decide), afterLine_cons (show '/' ≠ '\n' by decide)]
  rfl

theorem splitGap_piece (hspace : isSpace x = false) (hcomment : ¬(x = '/' ∧ rest.head? = some '/')) :
    splitGap false (x :: rest) = ([], x :: rest) := by
  rw [splitGap]
  · rw [hspace, if_neg Bool.false_ne_true]
  · rintro more rfl rfl
    exact hcomment ⟨rfl, rfl⟩

end Gaps

section Tokens

theorem nextToken_last (h : c.ahead? = some ([], visible)) (hgap : (splitGap false visible).2 = []) :
    c.nextToken = (.ok (Token.eofAt (c.pass visible).pos), c.pass visible) := by
  have hsplit := splitGap_append false visible
  rw [hgap, List.append_nil] at hsplit
  simp [nextToken, h, hgap, hsplit]

theorem nextToken_shown (h : c.ahead? = some ([], visible))
    (hgap : (splitGap false visible).2 = x :: rest) :
    c.nextToken = (.ok ((Piece.read x rest).1.token (c.pass (splitGap false visible).1).pos),
      c.pass ((splitGap false visible).1 ++ (Piece.read x rest).1.text)) := by
  rw [pass_append]
  simp [nextToken, h, hgap]

theorem nextToken_hidden (h : c.ahead? = some (x :: hidden, visible)) :
    c.nextToken = (.ok ((readHidden x hidden visible).1.token c.pos),
      c.pass (readHidden x hidden visible).1.text) := by
  simp [nextToken, h]

end Tokens

namespace Scan

/-- Where nothing is seen nothing is skipped, and only the end of the text is no token's beginning. -/
theorem runFrom_skipGap_unseen (hvisible : c.visible = []) (hend : c.atEnd = false) (h : c.remaining < n) :
    (skipGap n).runFrom c = some (.ok true, c) := by
  obtain ⟨n, rfl⟩ := Nat.exists_eq_add_one.mpr (rounds_pos h)
  have hstays : c.skipSpaces = c := by
    rw [Cursor.skipSpaces, hvisible, List.takeWhile_nil, pass_nil]
  rw [skipGap, runFrom_atEnd, hend, if_neg Bool.false_ne_true, runFrom_ok (runFrom_skipSpaces h), hstays,
    runFrom_atEnd, hend, if_neg Bool.false_ne_true, runFrom_peek, runFrom_peek, peek_zero, hvisible]
  simp

theorem runFrom_skipGap_shown (h : c.ahead? = some ([], visible)) (hn : visible.length < n) :
    (skipGap n).runFrom c =
      some (.ok !(splitGap false visible).2.isEmpty, c.pass (splitGap false visible).1) := by
  induction n generalizing c visible with
  | zero => exact absurd hn (Nat.not_lt_zero _)
  | succ n ih =>
    have hlength := length_shown h
    have hrest := ahead?_skipSpaces h
    have hle := List.length_dropWhile_le isSpace visible
    rw [skipGap, runFrom_atEnd, (ahead_shown h).atEnd]
    by_cases hnil : visible = []
    · simp [hnil, splitGap, pass_nil]
    rw [if_neg (by simpa using hnil), runFrom_ok (runFrom_skipSpaces (by omega)), skipSpaces_shown h,
      runFrom_atEnd, (ahead_shown hrest).atEnd, splitGap_spaces visible]
    cases hdrop : visible.dropWhile isSpace with
    | nil => simp [splitGap]
    | cons x rest =>
      rw [hdrop] at hrest hle
      have hx : isSpace x = false := by
        have hhead := List.head?_dropWhile_not isSpace visible
        rwa [hdrop] at hhead
      rw [List.isEmpty_cons, if_neg Bool.false_ne_true, runFrom_peek, runFrom_peek, peek_zero,
        peek_one (visible_shown hrest), visible_shown hrest, List.head?_cons]
      by_cases hcomment : x = '/' ∧ rest.head? = some '/'
      · obtain ⟨rfl, hslash⟩ := hcomment
        obtain ⟨rest, rfl⟩ := List.head?_eq_some_iff.mp hslash
        have hline := congrArg List.length (firstLine_append ('/' :: '/' :: rest))
        rw [List.length_append, firstLine_cons (by decide), List.length_cons] at hline
        have hleft := remaining_pass_le c (visible.takeWhile isSpace)
        rw [if_pos ⟨rfl, rfl⟩, runFrom_ok (by rw [runFrom_skipLine (by omega), Cursor.skipLine, hrest]),
          List.nil_append, ih (ahead?_pass_shown (by rwa [firstLine_append])) (by omega), splitGap_comment,
          ← pass_append, ← pass_append]
        rfl
      · rw [if_neg (by simpa using hcomment), splitGap_piece hx hcomment]
        simp

/-- What follows the first character of a token, unless that opens a string, is only what can be seen. -/
theorem runFrom_tokenFrom (hx : x ≠ '"') (h : c.remaining < n) :
    (tokenFrom n x p).runFrom c = some (.ok ((Piece.read x c.visible).1.token p),
      c.pass ((Piece.read x c.visible).1.text.drop 1)) := by
  unfold tokenFrom Piece.read
  cases Kind.punctuation.lookup x with
  | some kind => simp [Piece.token, Piece.text, pass_nil]
  | none =>
    cases Kind.joinable.lookup x with
    | some kinds =>
      simp only [runFrom_peek, peek_zero]
      cases hvisible : c.visible with
      | nil => simp [Piece.token, Piece.text, pass_nil]
      | cons y rest =>
        by_cases hy : y = '='
        · rw [hy] at hvisible
          rw [hy, List.head?_cons, if_pos rfl,
            runFrom_advance_ahead (ahead_shown (ahead?_of_visible hvisible)), runFrom_pure,
            toString_append_ofList x ['=']]
          rfl
        · simp [hy, Piece.token, Piece.text, pass_nil]
    | none =>
      simp only [if_neg hx]
      by_cases hletter : isLetter x = true
      · simp only [if_pos hletter, runFrom_word _ h, Cursor.word, toString_append_ofList]
        rfl
      · simp only [if_neg hletter]
        by_cases hdigit : isDigit x = true
        · simp only [if_pos hdigit, runFrom_number _ h, Cursor.number, toString_append_ofList]
          rfl
        · simp [if_neg hdigit, Piece.token, Piece.text, pass_nil]

theorem tokenFrom_quote : tokenFrom n '"' p = string n p := rfl

theorem readHidden_quote (hidden visible : List Char) :
    (readHidden '"' hidden visible).1 = (Piece.closeString ('"' :: hidden) visible).1 := by
  unfold readHidden
  split
  · rename_i hnil
    rw [hnil]
    rfl
  · rfl

theorem runFrom_tokenFrom_ahead (h : (c.pass [x]).ahead? = some (hidden, visible))
    (hn : (c.pass [x]).remaining < n) :
    (tokenFrom n x p).runFrom (c.pass [x]) = some (.ok ((readHidden x hidden visible).1.token p),
      c.pass (readHidden x hidden visible).1.text) := by
  by_cases hx : x = '"'
  · subst hx
    obtain ⟨t, htext, -⟩ := Piece.closeString_text ('"' :: hidden) visible
    rw [tokenFrom_quote, runFrom_string hn, readHidden_quote]
    simp only [Cursor.string, h]
    rw [htext, List.cons_append, List.drop_one, List.tail_cons, ← pass_cons]
  · have hread : (readHidden x hidden visible).1 = (Piece.read x (c.pass [x]).visible).1 := by
      cases hidden with
      | nil => rw [visible_shown h, readHidden, if_pos rfl]
      | cons y hidden => rw [visible_hidden h, readHidden, if_neg (List.cons_ne_nil y hidden), if_neg hx]
    obtain ⟨t, htext, -⟩ := Piece.read_text x (c.pass [x]).visible
    rw [runFrom_tokenFrom hx hn, hread, htext, List.drop_one, List.tail_cons, ← pass_cons]

theorem runFrom_nextToken (h : c.remaining < n) : (nextToken n).runFrom c = some c.nextToken := by
  cases hahead : c.ahead? with
  | none =>
    rw [nextToken, runFrom_ok (runFrom_skipGap_unseen (visible_before hahead) (atEnd_before hahead) h),
      if_pos rfl, runFrom_get, runFrom_advance_before hahead, Cursor.nextToken, hahead]
  | some ahead =>
    obtain ⟨hidden, visible⟩ := ahead
    cases hidden with
    | cons x hidden =>
      have hpass := remaining_pass_le c [x]
      rw [nextToken, runFrom_ok (runFrom_skipGap_unseen (visible_hidden hahead)
        (ahead_append hahead).atEnd h), if_pos rfl, runFrom_get, runFrom_advance_ahead (ahead_append hahead),
        runFrom_tokenFrom_ahead (ahead?_hidden hahead) (by omega), nextToken_hidden hahead]
    | nil =>
      have hlength := length_shown hahead
      rw [nextToken, runFrom_ok (runFrom_skipGap_shown hahead (by omega))]
      cases hgap : (splitGap false visible).2 with
      | nil =>
        have hall := splitGap_append false visible
        rw [hgap, List.append_nil] at hall
        rw [nextToken_last hahead hgap, hall]
        rfl
      | cons x rest =>
        have hrest : (c.pass (splitGap false visible).1).ahead? = some ([], x :: rest) :=
          ahead?_pass_shown (by rwa [← hgap, splitGap_append])
        have hstart := remaining_pass_le c (splitGap false visible).1
        have hpass := remaining_pass_le (c.pass (splitGap false visible).1) [x]
        rw [List.isEmpty_cons, Bool.not_false, if_pos rfl, runFrom_get,
          runFrom_advance_ahead (ahead_shown hrest), runFrom_tokenFrom_ahead (ahead?_shown hrest) (by omega),
          nextToken_shown hahead hgap, pass_append]
        rfl

end Scan

section Drains

theorem Ahead.reads (h : c.Ahead text) : Reads c text (c.pass text) := by
  induction text generalizing c with
  | nil =>
    rw [pass_nil]
    exact .nil
  | cons x text ih =>
    rw [pass_cons]
    exact .cons h.next (ih h.pass)

/-- One token of what can be seen is taken as the tokens begin. -/
theorem takes_shown (p : Pos) (visible : List Char) : ∀ c : Cursor, c.pos = p →
    c.ahead? = some ([], visible) → Takes c (Lexer.tokens p visible) (c.pass visible) := by
  induction p, visible using Lexer.tokens.induct with
  | case1 p visible hgap =>
    rintro c rfl h
    rw [tokens_last hgap]
    exact .last (nextToken_last h hgap) rfl
  | case2 p visible start x rest hgap found hshorter ih =>
    rintro c rfl h
    have hvisible : (splitGap false visible).1 ++ found.1.text ++ found.2 = visible := by
      have hsplit := splitGap_append false visible
      rwa [hgap, ← Piece.read_append x rest, ← List.append_assoc] at hsplit
    have hahead := ahead?_pass_shown (hvisible.symm ▸ h)
    have hmore := ih _ (by rw [pass_append]; rfl) hahead
    rw [← pass_append, hvisible] at hmore
    rw [tokens_piece hgap]
    exact .more (nextToken_shown h hgap) (Piece.token_kind x rest _) hmore

/-- A piece that starts at a hidden character either stays among the hidden ones, or takes them all
and goes on with what can be seen. -/
theorem readHidden_cases (x : Char) (hidden visible : List Char) :
    (∃ t, (readHidden x hidden visible).1.text = x :: hidden ++ t ∧
      (readHidden x hidden visible).2.1 = [] ∧ t ++ (readHidden x hidden visible).2.2 = visible) ∨
    (∃ t, (readHidden x hidden visible).1.text = x :: t ∧
      t ++ (readHidden x hidden visible).2.1 = hidden ∧
      (readHidden x hidden visible).2.2 = visible) := by
  unfold readHidden
  split
  · rename_i hnil
    obtain ⟨t, htext, ht⟩ := Piece.read_text x visible
    exact .inl ⟨t, by simp [htext, hnil], rfl, ht⟩
  · split
    · obtain ⟨t, htext, ht⟩ := Piece.closeString_text (x :: hidden) visible
      exact .inl ⟨t, htext, rfl, ht⟩
    · obtain ⟨t, htext, ht⟩ := Piece.read_text x []
      obtain ⟨rfl, -⟩ := List.append_eq_nil_iff.mp ht
      exact .inr ⟨[], htext, rfl, rfl⟩

theorem readHidden_kind (x : Char) (hidden visible : List Char) (p : Pos) :
    ((readHidden x hidden visible).1.token p).kind ≠ .eof := by
  unfold readHidden
  split
  · exact Piece.token_kind x visible p
  · split
    · exact Piece.closeString_kind (x :: hidden) visible p
    · exact Piece.token_kind x [] p

theorem ahead?_readHidden (h : c.ahead? = some (x :: hidden, visible)) :
    (c.pass (readHidden x hidden visible).1.text).ahead? =
      some (readHidden x hidden visible).2 := by
  obtain ⟨t, htext, hnil, ht⟩ | ⟨t, htext, ht, hvisible⟩ := readHidden_cases x hidden visible
  · have hall : (c.pass (x :: hidden)).ahead? = some ([], visible) :=
      ahead?_pass_hidden (by rwa [List.append_nil])
    rw [← ht] at hall
    rw [htext, pass_append, ahead?_pass_shown hall, ← hnil]
  · rw [← ht, ← List.cons_append, ← htext] at h
    rw [ahead?_pass_hidden h]
    exact congrArg (fun v => some (_, v)) hvisible.symm

theorem readHidden_append (x : Char) (hidden visible : List Char) :
    (readHidden x hidden visible).1.text ++
      ((readHidden x hidden visible).2.1 ++ (readHidden x hidden visible).2.2) =
      x :: hidden ++ visible := by
  obtain ⟨t, htext, hnil, ht⟩ | ⟨t, htext, ht, hvisible⟩ := readHidden_cases x hidden visible
  · rw [htext, hnil, List.nil_append, List.append_assoc, ht]
  · rw [← List.append_assoc, htext, List.cons_append, ht, hvisible]

theorem takes_ahead (p : Pos) (hidden visible : List Char) : ∀ c : Cursor, c.pos = p →
    c.ahead? = some (hidden, visible) →
      Takes c (tokensOf p hidden visible) (c.pass (hidden ++ visible)) := by
  induction p, hidden, visible using tokensOf.induct with
  | case1 p visible =>
    intro c hp h
    rw [tokensOf]
    exact takes_shown p visible c hp h
  | case2 p visible x hidden found ih =>
    rintro c rfl h
    have hmore := ih _ rfl (ahead?_readHidden h)
    rw [← pass_append, readHidden_append] at hmore
    rw [tokensOf]
    exact .more (nextToken_hidden h) (readHidden_kind x hidden visible _) hmore

/-- A token takes a character, unless it is the end. -/
theorem nextToken_cases (h : c.nextToken = (.ok t, d)) :
    ∃ text, d = c.pass text ∧ (t.kind ≠ .eof ∧ text ≠ [] ∨ t = Token.eofAt d.pos) := by
  cases hahead : c.ahead? with
  | none =>
    rw [nextToken, hahead] at h
    cases h
  | some ahead =>
    obtain ⟨hidden, visible⟩ := ahead
    cases hidden with
    | nil =>
      cases hgap : (splitGap false visible).2 with
      | nil =>
        rw [nextToken_last hahead hgap] at h
        cases h
        exact ⟨visible, rfl, .inr rfl⟩
      | cons x rest =>
        rw [nextToken_shown hahead hgap] at h
        cases h
        refine ⟨_, rfl, .inl ⟨Piece.token_kind x rest _, ?_⟩⟩
        simp [Piece.text_ne_nil]
    | cons x hidden =>
      rw [nextToken_hidden hahead] at h
      cases h
      refine ⟨_, rfl, .inl ⟨readHidden_kind x hidden visible _, ?_⟩⟩
      obtain ⟨t, htext, -⟩ | ⟨t, htext, -⟩ := readHidden_cases x hidden visible
      · simp [htext]
      · simp [htext]

theorem nextToken_progress (h : c.nextToken = (.ok t, d)) (hkind : t.kind ≠ .eof) :
    d.remaining < c.remaining := by
  have hsome : c.remaining ≠ 0 := by
    intro hnone
    rw [nextToken_last (ahead?_end hnone) rfl] at h
    cases h
    exact hkind rfl
  obtain ⟨text, rfl, ⟨-, htext⟩ | heof⟩ := nextToken_cases h
  · exact remaining_pass_lt hsome htext
  · exact absurd (congrArg Token.kind heof) hkind

theorem Scan.runFrom_drain (htakes : Takes c ts d) (h : c.remaining < n) :
    (Scan.drain n taken).runFrom c = some (.ok (taken ++ ts), d) := by
  induction htakes generalizing n taken with
  | last hnext hkind =>
    obtain ⟨n, rfl⟩ := Nat.exists_eq_add_one.mpr (rounds_pos h)
    rw [drain, runFrom_ok (by rw [runFrom_nextToken h, hnext]), if_pos hkind, runFrom_pure]
  | more hnext hkind _ ih =>
    obtain ⟨n, rfl⟩ := Nat.exists_eq_add_one.mpr (rounds_pos h)
    have hless := nextToken_progress hnext hkind
    rw [drain, runFrom_ok (by rw [runFrom_nextToken h, hnext]), if_neg hkind, ih (by omega),
      List.append_assoc, List.singleton_append]

theorem Scan.runFrom_tokens (h : c.remaining < n) : (Scan.tokens n).runFrom c = some c.tokens := by
  cases hahead : c.ahead? with
  | none =>
    obtain ⟨n, rfl⟩ := Nat.exists_eq_add_one.mpr (rounds_pos h)
    have hrefused : c.nextToken = (.error (.beforeStart c.position), c) := by
      rw [Cursor.nextToken, hahead]
    rw [tokens, drain, runFrom_error (by rw [runFrom_nextToken h, hrefused]), Cursor.tokens, hahead]
  | some ahead =>
    obtain ⟨hidden, visible⟩ := ahead
    rw [tokens, runFrom_drain (takes_ahead c.pos hidden visible c rfl hahead) h, Cursor.tokens, hahead,
      List.nil_append]

theorem Takes.length_le (h : Takes c ts d) : (ts.length : Int) ≤ d.position - c.position + 1 := by
  induction h with
  | last hnext _ =>
    obtain ⟨text, rfl, -⟩ := nextToken_cases hnext
    simp only [List.length_singleton, pass]
    omega
  | more hnext hkind _ ih =>
    obtain ⟨text, rfl, ⟨-, htext⟩ | heof⟩ := nextToken_cases hnext
    · have hpos := List.length_pos_iff.mpr htext
      simp only [List.length_cons, pass] at ih ⊢
      omega
    · exact absurd (congrArg Token.kind heof) hkind

/-- Only the last token is the end, and it stands where the taking stops. -/
theorem Takes.exists_front (h : Takes c ts d) :
    ∃ front, ts = front ++ [Token.eofAt d.pos] ∧ ∀ t ∈ front, t.kind ≠ .eof := by
  induction h with
  | last hnext hkind =>
    obtain ⟨text, rfl, ⟨hother, -⟩ | heof⟩ := nextToken_cases hnext
    · exact absurd hkind hother
    · exact ⟨[], by rw [heof]; rfl, by simp⟩
  | more _ hkind _ ih =>
    obtain ⟨front, rfl, hfront⟩ := ih
    exact ⟨_ :: front, rfl, by simpa using ⟨hkind, hfront⟩⟩

end Drains

/-- The cursor `d` is reached from `c` by taking one character after the other, and by taking the
tokens of `front` and the end after them. There nothing moves, and the same end is met again. -/
structure Drained (c : Cursor) (front : List Token) (d : Cursor) : Prop where
  reads : ∃ hidden visible, c.ahead? = some (hidden, visible) ∧ Reads c (hidden ++ visible) d
  takes : Takes c (front ++ [Token.eofAt d.pos]) d
  not_end : ∀ t ∈ front, t.kind ≠ .eof
  count : ((front ++ [Token.eofAt d.pos]).length : Int) ≤
    max c.position c.source.length - c.position + 1
  source : d.source = c.source
  position : d.position = max c.position c.source.length
  stays : ∀ rounds, 0 < rounds →
    (Scan.nextToken rounds).runFrom d = some (.ok (Token.eofAt d.pos), d)

theorem exists_drained (h : c.ahead? = some (hidden, visible)) :
    ∃ front d, c.tokens = (.ok (front ++ [Token.eofAt d.pos]), d) ∧ Drained c front d := by
  have htakes := takes_ahead c.pos hidden visible c rfl h
  obtain ⟨front, hfront, hother⟩ := htakes.exists_front
  have hposition : (c.pass (hidden ++ visible)).position = max c.position c.source.length := by
    have hlength := length_ahead h
    rw [remaining] at hlength
    simp only [pass]
    omega
  have hnone : (c.pass (hidden ++ visible)).remaining = 0 := by
    rw [remaining, hposition]
    simp only [pass]
    omega
  have hcount := htakes.length_le
  rw [hfront] at htakes hcount
  refine ⟨front, c.pass (hidden ++ visible), ?_, ⟨⟨_, _, h, (ahead_append h).reads⟩, htakes, hother, ?_,
    rfl, hposition, ?_⟩⟩
  · simp only [tokens, h, hfront]
  · rwa [hposition] at hcount
  · intro rounds hrounds
    rw [Scan.runFrom_nextToken (by omega), nextToken_last (ahead?_end hnone) rfl, pass_nil]

/-- Taking all tokens ends, wherever it starts: no loop takes more rounds than there are characters left,
and one. It is refused exactly before the first character, where nothing moves; from every other place
the text is taken to its end and no further. -/
theorem tokens_end_everywhere (c : Cursor) (rounds : Nat)
    (h : max c.position c.source.length - c.position < rounds) :
    (Scan.tokens rounds).runFrom c = some c.tokens ∧
    ((∃ refusal d, (Scan.tokens rounds).runFrom c = some (.error refusal, d)) ↔
      c.position < -c.source.length) ∧
    (c.position < -c.source.length →
      (Scan.tokens rounds).runFrom c = some (.error (.beforeStart c.position), c)) ∧
    (-c.source.length ≤ c.position → ∃ front d,
      (Scan.tokens rounds).runFrom c = some (.ok (front ++ [Token.eofAt d.pos]), d) ∧
      Drained c front d) := by
  have hruns : (Scan.tokens rounds).runFrom c = some c.tokens := Scan.runFrom_tokens h
  have hbefore : c.position < -c.source.length →
      c.tokens = (.error (.beforeStart c.position), c) := by
    intro hbefore
    simp only [tokens, ahead?_before hbefore]
  have hinside : -c.source.length ≤ c.position →
      ∃ front d, c.tokens = (.ok (front ++ [Token.eofAt d.pos]), d) ∧ Drained c front d := by
    intro hinside
    obtain ⟨hidden, visible, hahead⟩ := exists_ahead? hinside
    exact exists_drained hahead
  rw [hruns]
  refine ⟨rfl, ⟨?_, fun h => ⟨_, _, by rw [hbefore h]⟩⟩, fun h => by rw [hbefore h], fun h => ?_⟩
  · rintro ⟨refusal, d, hrefused⟩
    by_contra hplace
    obtain ⟨front, e, htokens, -⟩ := hinside (by omega)
    rw [htokens] at hrefused
    cases hrefused
  · obtain ⟨front, d, htokens, hdrained⟩ := hinside h
    exact ⟨front, d, by rw [htokens], hdrained⟩

/-- At position -1 the last character is hidden, and the first one joins it: the text is taken again
from its start. Before the place of the first character nothing is taken. -/
theorem tokens_end_across_start :
    let before : Cursor := ⟨['=', '='], -3, ⟨5, 7⟩⟩
    let c : Cursor := ⟨['=', '='], -1, ⟨5, 7⟩⟩
    (before.position < -before.source.length ∧
      (Scan.tokens 6).runFrom before = some (.error (.beforeStart (-3)), before)) ∧
    -c.source.length ≤ c.position ∧ ∃ front d,
      (Scan.tokens 4).runFrom c = some (.ok (front ++ [Token.eofAt d.pos]), d) ∧ Drained c front d := by
  intro before c
  have hbefore : before.position < -before.source.length := by decide
  have hinside : -c.source.length ≤ c.position := by decide
  obtain ⟨-, -, hrefused, -⟩ := tokens_end_everywhere before 6 (by decide)
  obtain ⟨-, -, -, hdrained⟩ := tokens_end_everywhere c 4 (by decide)
  exact ⟨⟨hbefore, hrefused hbefore⟩, hinside, hdrained hinside⟩

example : (Scan.tokens 4).runFrom ⟨['=', '='], -1, ⟨5, 7⟩⟩ = some (.ok
    [⟨.equalEqual, "==", ⟨5, 7⟩, none⟩, ⟨.equal, "=", ⟨5, 9⟩, none⟩, Token.eofAt ⟨5, 10⟩],
    ⟨['=', '='], 2, ⟨5, 10⟩⟩) := by
  decide +kernel

end Cursor
end Reckon
