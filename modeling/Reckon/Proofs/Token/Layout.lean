import Mathlib.Data.List.Induction
import Reckon.Proofs.Token.Form

/-! How the tokens of a text lie in it. The text is cut into gaps and the texts of tokens, with
nothing left over, and the place of every token is counted from the start of the text. -/
namespace Reckon

/-- The place after a text: one more than its newlines, and than the characters after the last. -/
def Pos.counted (before : List Char) : Pos :=
  ⟨1 + before.count '\n', 1 + (before.reverse.takeWhile (· != '\n')).length⟩

theorem Pos.start_past (text : List Char) : Pos.start.past text = Pos.counted text := by
  induction text using List.reverseRecOn with
  | nil => rfl
  | append_singleton text c ih =>
    rw [Pos.past_append, ih]
    by_cases hc : c = '\n'
    · subst hc
      simp only [Pos.past_cons, Pos.past_nil, Pos.after, if_true, Pos.counted, List.count_append,
        List.count_singleton_self, List.reverse_append]
      simp
      omega
    · simp [Pos.after, hc, Pos.counted]
      omega

theorem Pos.counted_past (before text : List Char) :
    (Pos.counted before).past text = Pos.counted (before ++ text) := by
  rw [← Pos.start_past, ← Pos.past_append, Pos.start_past]

namespace Lexer

/-- Separators and comments, each of which runs through its newline. In the last gap of a text a
comment may run to the end instead. -/
inductive Gap : (last : Bool) → List Char → Prop
  | nil {last} : Gap last []
  | space {last c rest} : c ∈ [' ', '\t', '\r', '\n'] → Gap last rest → Gap last (c :: rest)
  | comment {last body rest} : '\n' ∉ body → Gap last rest →
      Gap last ('/' :: '/' :: (body ++ '\n' :: rest))
  | unended {body} : '\n' ∉ body → Gap true ('/' :: '/' :: body)

variable {p : Pos} {text rest : List Char} {c : Char} {last : Bool}

theorem Gap.comment_cons {g : List Char} (hc : c ≠ '\n') (h : Gap last ('/' :: '/' :: g)) :
    Gap last ('/' :: '/' :: c :: g) := by
  generalize htext : '/' :: '/' :: g = text at h
  cases h with
  | nil => cases htext
  | space hspace _ =>
    obtain ⟨rfl, -⟩ := List.cons.inj htext
    exact absurd hspace (by decide)
  | @comment _ body rest hbody hrest =>
    obtain rfl : g = body ++ '\n' :: rest := by simpa using htext
    exact @Gap.comment last (c :: body) rest (by simp [hbody, Ne.symm hc]) hrest
  | @unended body hbody =>
    obtain rfl : g = body := by simpa using htext
    exact .unended (by simp [hbody, Ne.symm hc])

/-- Within a comment, its opening makes a gap of what is skipped. -/
theorem splitGap_gap (inComment : Bool) (text : List Char) :
    Gap (splitGap inComment text).2.isEmpty
      ((if inComment then ['/', '/'] else []) ++ (splitGap inComment text).1) := by
  fun_induction splitGap inComment text with
  | case1 inComment =>
    cases inComment with
    | false => exact .nil
    | true => exact .unended (by simp)
  | case2 c rest ih =>
    by_cases hc : c = '\n'
    · subst hc
      exact @Gap.comment _ [] _ (by simp) ih
    · -- the comment goes on, so the hypothesis is about the same opening with one character less
      have hcomment : (c != '\n') = true := by simpa using hc
      rw [hcomment] at ih ⊢
      exact .comment_cons hc ih
  | case3 rest ih => exact ih
  | case4 c rest _ hc ih =>
    refine .space ?_ ih
    simpa [isSpace, or_assoc] using hc
  | case5 c rest _ hc => exact .nil

def StartsGap (text : List Char) : Prop :=
  (∃ c ∈ text.head?, c ∈ [' ', '\t', '\r', '\n']) ∨ ['/', '/'] <+: text

/-- Gaps are skipped whole. -/
theorem splitGap_rest (inComment : Bool) (text : List Char) :
    ¬ StartsGap (splitGap inComment text).2 := by
  fun_induction splitGap inComment text with
  | case1 inComment => simp [StartsGap]
  | case2 c rest ih => exact ih
  | case3 rest ih => exact ih
  | case4 c rest _ hc ih => exact ih
  | case5 c rest hcomment hc =>
    intro hstart
    cases hstart with
    | inl hspace =>
      obtain ⟨x, hx, hmem⟩ := hspace
      obtain rfl : c = x := by simpa using hx
      apply hc
      simpa [isSpace, or_assoc] using hmem
    | inr hslashes =>
      obtain ⟨after, heq⟩ := hslashes
      obtain ⟨rfl, rfl⟩ : '/' = c ∧ '/' :: after = rest := by simpa using heq
      exact hcomment after rfl rfl

theorem tokens_last (h : (splitGap false text).2 = []) :
    tokens p text = [Token.eofAt (p.past text)] := by
  have hgap := splitGap_append false text
  rw [h, List.append_nil] at hgap
  rw [tokens]
  split
  · rw [hgap]
  · rename_i heq
    rw [h] at heq
    cases heq

theorem tokens_piece (h : (splitGap false text).2 = c :: rest) :
    tokens p text =
      (Piece.read c rest).1.token (p.past (splitGap false text).1) ::
        tokens ((p.past (splitGap false text).1).past (Piece.read c rest).1.text)
          (Piece.read c rest).2 := by
  rw [tokens]
  split
  · rename_i heq
    rw [h] at heq
    cases heq
  · rename_i c' rest' heq
    rw [h] at heq
    obtain ⟨rfl, rfl⟩ := List.cons.inj heq
    rfl

structure Cut where
  gap : List Char
  text : List Char
  token : Token

def chars (cuts : List Cut) : List Char :=
  cuts.flatMap fun c => c.gap ++ c.text

/-- The tokens of `text`, which stands after `before`, are those of the cuts and the end. Of each cut
`Q` holds, with all that stands before it and after it. -/
structure Layout (Q : List Char → Cut → List Char → Prop) (before text : List Char)
    (tokens : List Token) (cuts : List Cut) (final : List Char) : Prop where
  text_eq : text = chars cuts ++ final
  tokens_eq : tokens = cuts.map Cut.token ++ [Token.eofAt (Pos.counted (before ++ text))]
  final_gap : Gap true final
  each : ∀ left cut right, cuts = left ++ cut :: right →
    Q (before ++ chars left) cut (chars right ++ final)

theorem Layout.cons {Q : List Char → Cut → List Char → Prop} {before text : List Char}
    {tokens : List Token} {cuts : List Cut} {final : List Char} {cut : Cut}
    (h : Layout Q (before ++ (cut.gap ++ cut.text)) text tokens cuts final)
    (hcut : Q before cut text) :
    Layout Q before (cut.gap ++ cut.text ++ text) (cut.token :: tokens) (cut :: cuts) final where
  text_eq := by
    rw [h.text_eq]
    simp [chars]
  tokens_eq := by
    rw [h.tokens_eq]
    simp
  final_gap := h.final_gap
  each := by
    intro left c right heq
    cases left with
    | nil =>
      obtain ⟨rfl, rfl⟩ := List.cons.inj heq
      rw [h.text_eq] at hcut
      simpa [chars] using hcut
    | cons d left =>
      obtain ⟨rfl, htail⟩ := List.cons.inj heq
      have heach := h.each left c right htail
      simpa [chars] using heach

def cutAt (before text : List Char) (c : Char) (rest : List Char) : Cut :=
  let gap := (splitGap false text).1
  let piece := (Piece.read c rest).1
  ⟨gap, piece.text, piece.token (Pos.counted (before ++ gap))⟩

theorem cutAt_append (before : List Char) (h : (splitGap false text).2 = c :: rest) :
    (cutAt before text c rest).gap ++ (cutAt before text c rest).text ++ (Piece.read c rest).2 =
      text := by
  have hpiece := Piece.read_append c rest
  have hgap := splitGap_append false text
  rw [h, ← hpiece] at hgap
  simpa [cutAt] using hgap

theorem cutAt_tokens (before : List Char) (h : (splitGap false text).2 = c :: rest) :
    tokens (Pos.counted before) text =
      (cutAt before text c rest).token ::
        tokens (Pos.counted
          (before ++ ((cutAt before text c rest).gap ++ (cutAt before text c rest).text)))
          (Piece.read c rest).2 := by
  rw [tokens_piece h, Pos.counted_past, Pos.counted_past, List.append_assoc]
  rfl

/-- What holds of every cut that one step of lexing makes holds all over the layout. -/
theorem exists_layout {Q : List Char → Cut → List Char → Prop}
    (hstep : ∀ before text c rest, (splitGap false text).2 = c :: rest →
      Q before (cutAt before text c rest) (Piece.read c rest).2) (before text : List Char) :
    ∃ cuts final, Layout Q before text (tokens (Pos.counted before) text) cuts final := by
  induction hsize : text.length using Nat.strongRecOn generalizing before text with
  | ind size ih =>
    cases hrest : (splitGap false text).2 with
    | nil =>
      have hgap := splitGap_gap false text
      have hsplit := splitGap_append false text
      rw [hrest] at hgap hsplit
      rw [List.append_nil] at hsplit
      refine ⟨[], text, ?_, ?_, ?_, ?_⟩
      · simp [chars]
      · rw [tokens_last hrest, Pos.counted_past]
        rfl
      · rw [hsplit] at hgap
        simpa using hgap
      · intro left cut right heq
        simp at heq
    | cons c rest =>
      have hshorter := read_shorter hrest
      obtain ⟨cuts, final, hlayout⟩ :=
        ih (Piece.read c rest).2.length (hsize ▸ hshorter)
          (before ++ ((cutAt before text c rest).gap ++ (cutAt before text c rest).text))
          (Piece.read c rest).2 rfl
      have hcons := hlayout.cons (hstep before text c rest hrest)
      refine ⟨cutAt before text c rest :: cuts, final, ?_⟩
      rwa [cutAt_append before hrest, ← cutAt_tokens before hrest] at hcons

/-- The gap is one, the token stands where it says, and the text is its lexeme; only an unknown
token without a lexeme stands for a character that it does not show. -/
structure Exact (before : List Char) (cut : Cut) : Prop where
  gap : Gap false cut.gap
  place : cut.token.pos = Pos.counted (before ++ cut.gap)
  not_end : cut.token.kind ≠ .eof
  hidden : cut.token.kind = .unknown → cut.token.lexeme = "" → ∃ x, cut.text = [x]
  shown : ¬ (cut.token.kind = .unknown ∧ cut.token.lexeme = "") →
    cut.text = cut.token.lexeme.toList

theorem form_kinds : (∀ x ∈ marks, x.2 ≠ .eof ∧ x.2 ≠ .unknown) ∧
    ∀ x ∈ Kind.reserved, x.2 ≠ .eof ∧ x.2 ≠ .unknown := by
  decide

theorem Form.kind_ne {kind : Kind} (h : Form text kind) : kind ≠ .eof ∧ kind ≠ .unknown := by
  cases h with
  | mark hmark => exact form_kinds.1 _ hmark
  | reserved _ hmem => exact form_kinds.2 _ hmem
  | string _ => decide
  | identifier _ _ => decide
  | whole _ => decide
  | fraction _ _ => decide

theorem cutAt_exact (before : List Char) (h : (splitGap false text).2 = c :: rest) :
    Exact before (cutAt before text c rest) := by
  have hgap : Gap false (splitGap false text).1 := by
    have hskip := splitGap_gap false text
    rw [h] at hskip
    exact hskip
  have hlongest := read_longest c rest
  unfold cutAt
  generalize (Piece.read c rest).1 = piece at hlongest
  cases piece with
  | proper kind text =>
    obtain ⟨heof, hunknown⟩ := hlongest.1.kind_ne
    refine ⟨hgap, rfl, heof, ?_, ?_⟩
    · intro hkind
      exact absurd hkind hunknown
    · intro _
      simp [Piece.text, Piece.token]
  | openString text =>
    obtain ⟨-, hquote, rfl⟩ := hlongest
    refine ⟨hgap, rfl, by simp [Piece.token], ?_, ?_⟩
    · intro _ hlexeme
      simp [Piece.token] at hlexeme
    · intro _
      simp [Piece.text, Piece.token]
  | stray x =>
    refine ⟨hgap, rfl, by simp [Piece.token], ?_, ?_⟩
    · intro _ _
      exact ⟨x, rfl⟩
    · intro hshown
      exact absurd ⟨rfl, rfl⟩ hshown

/-- Every text is laid out by its tokens, in order and without loss, each at its exact place. -/
theorem tokenize_lays_out (source : String) :
    ∃ cuts final, Layout (fun before cut _ => Exact before cut) [] source.toList
      (tokenize source) cuts final :=
  exists_layout (fun before _ _ _ h => cutAt_exact before h) [] source.toList

/-- The token at the start of `ahead` is the longest form there, of no other kind than its own, or
unknown if there is none: a string without end, or one character. -/
inductive Munches (ahead : List Char) (cut : Cut) : Prop
  | form : Form cut.text cut.token.kind → (∀ kind, Form cut.text kind → kind = cut.token.kind) →
      (∀ p kind, Form p kind → p <+: ahead → p.length ≤ cut.text.length) →
      cut.token.lexeme = String.ofList cut.text → cut.token.error = none → Munches ahead cut
  | openString : Formless ahead → ahead.head? = some '"' → cut.text = ahead →
      cut.token.kind = .unknown → cut.token.lexeme = String.ofList ahead →
      cut.token.error = some "Unterminated string" → Munches ahead cut
  | stray (x : Char) : Formless ahead → ahead.head? = some x → x ≠ '"' → cut.text = [x] →
      cut.token.kind = .unknown → cut.token.lexeme = "" →
      cut.token.error = some ("Unexpected character " ++ Text.quoted x.toString) →
      Munches ahead cut

theorem cutAt_munches (before text : List Char) (c : Char) (rest : List Char) :
    Munches (c :: rest) (cutAt before text c rest) := by
  have hlongest := read_longest c rest
  unfold cutAt
  generalize (Piece.read c rest).1 = piece at hlongest
  cases piece with
  | proper kind text =>
    have hkind : ∀ other, Form text other → other = kind :=
      fun _ hother => hother.kindOf_eq.symm.trans hlongest.1.kindOf_eq
    exact .form hlongest.1 hkind hlongest.2 rfl rfl
  | openString text =>
    obtain ⟨hnone, hquote, rfl⟩ := hlongest
    exact .openString hnone hquote rfl rfl rfl rfl
  | stray x =>
    obtain ⟨hnone, hhead, hquote⟩ := hlongest
    exact .stray x hnone hhead hquote rfl rfl rfl rfl

/-- The tokens of a text are the longest ones: with `ahead` what is left of the text where a token
starts, no gap is left there, and the token is the longest form of all that `ahead` starts with. -/
theorem tokenize_munches (source : String) :
    ∃ cuts final, Layout (fun before cut after => Exact before cut ∧
        ¬ StartsGap (cut.text ++ after) ∧ Munches (cut.text ++ after) cut)
      [] source.toList (tokenize source) cuts final := by
  refine exists_layout (fun before text c rest h => ?_) [] source.toList
  have hahead : (cutAt before text c rest).text ++ (Piece.read c rest).2 = c :: rest :=
    Piece.read_append c rest
  have hgap := splitGap_rest false text
  rw [h] at hgap
  rw [hahead]
  exact ⟨cutAt_exact before h, hgap, cutAt_munches before text c rest⟩

end Lexer
end Reckon
