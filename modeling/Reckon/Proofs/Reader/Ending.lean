import Reckon.Proofs.Reader.Calls

/-! What ends a list of tokens. A reader never steps over the first token of kind `eof` and never looks
behind it, and where there is none it meets one made at the last token. So two lists with the same
tokens before their ends and the same end cannot be told apart, however they are read. -/
namespace Reckon.Parser

def madeEnd (tokens : List Token) : Token :=
  Token.eofAt ((tokens.getLast?.map Token.pos).getD ⟨0, 0⟩)

structure EndAlike (tokens tokens' : List Token) : Prop where
  body_eq : body tokens' = body tokens
  stop_eq : stop tokens' = stop tokens

section Lists
variable {tokens tokens' u : List Token}

theorem stop_eq_madeEnd (hu : ∀ t ∈ u, t.kind ≠ .eof) : stop u = madeEnd u := by
  have hnone : u.find? (·.kind == .eof) = none := by simpa using hu
  rw [stop, hnone]
  rfl

/-- The end that is made can as well be in the list, with anything behind it. -/
theorem endAlike_append (hu : ∀ t ∈ u, t.kind ≠ .eof) (v : List Token) :
    EndAlike u (u ++ madeEnd u :: v) := by
  have hend : (madeEnd u).kind = .eof := rfl
  constructor
  · rw [body_of_eof hu hend, body_eq_self hu]
  · rw [stop_of_eof hu hend, stop_eq_madeEnd hu]

theorem parse_congr (h : EndAlike tokens tokens') : parse tokens' = parse tokens := by
  rw [parse, parse, h.body_eq, h.stop_eq]

theorem parseExpression_congr (h : EndAlike tokens tokens') :
    parseExpression tokens' = parseExpression tokens := by
  rw [parseExpression, parseExpression, h.body_eq, h.stop_eq]

theorem parseLine_congr (h : EndAlike tokens tokens') : parseLine tokens' = parseLine tokens := by
  rw [parseLine, parseLine, parse_congr h, parseExpression_congr h]

end Lists

namespace Reader
variable {α : Type} {r r' : Reader}

/-- The readers stand at one place, with as much open and allowed, in lists that differ at most behind
their ends. -/
structure Twins (r r' : Reader) : Prop where
  tokens : EndAlike r.tokens r'.tokens
  position_eq : r'.position = r.position
  depth_eq : r'.depth = r.depth
  limit_eq : r'.limit = r.limit

def GoAlike (out out' : Except Fault α × Reader) : Prop :=
  out'.1 = out.1 ∧ out.2.Twins out'.2

namespace Twins

theorem rest_eq (h : r.Twins r') : r'.rest = r.rest := by
  rw [rest, rest, h.tokens.body_eq, h.position_eq]

theorem room_eq (h : r.Twins r') : r'.room = r.room := by
  rw [room, room, h.limit_eq, h.depth_eq]

theorem peek_eq (h : r.Twins r') : r'.peek = r.peek := by
  rw [peek, peek, h.rest_eq, h.tokens.stop_eq]

theorem sees_eq (h : r.Twins r') (kinds : List Kind) : r'.sees kinds = r.sees kinds := by
  rw [sees, sees, h.rest_eq]

theorem atRest (h : r.Twins r') (ts : List Token) : (r.atRest ts).Twins (r'.atRest ts) := by
  refine ⟨h.tokens, ?_, h.depth_eq, h.limit_eq⟩
  simp only [Reader.atRest, h.tokens.body_eq]

theorem pull (h : r.Twins r') : r.pull.2.Twins r'.pull.2 := by
  rw [Reader.pull, Reader.pull, h.rest_eq]
  exact h.atRest _

theorem run (h : r.Twins r') (reading : Reading α) : GoAlike (r.run reading) (r'.run reading) := by
  rw [Reader.run, Reader.run, h.rest_eq]
  exact ⟨rfl, h.atRest _⟩

theorem replied {out out' : Except Fault α × Reader} (h : GoAlike out out') (f : α → Reply) :
    GoAlike (Parser.replied f out) (Parser.replied f out') :=
  ⟨congrArg (Except.map f) h.1, h.2⟩

theorem sound (h : r.Twins r') (hr : r.Sound) : r'.Sound := by
  have hplace := sound_iff.mp hr
  rw [sound_iff, h.tokens.body_eq, h.position_eq]
  exact hplace

theorem answer (h : r.Twins r') (c : Call) : GoAlike (r.answer c) (r'.answer c) := by
  have hstop := h.tokens.stop_eq
  cases c with
  | peek => exact ⟨by rw [Reader.answer, Reader.answer, h.peek_eq], h⟩
  | atEnd => exact ⟨by rw [Reader.answer, Reader.answer, atEnd, atEnd, h.rest_eq], h⟩
  | sees kinds => exact ⟨by rw [Reader.answer, Reader.answer, h.sees_eq], h⟩
  | pull =>
    refine ⟨?_, h.pull⟩
    rw [Reader.answer, Reader.answer, Reader.pull, Reader.pull, h.peek_eq]
  | eat kind =>
    rw [Reader.answer, Reader.answer, eat, eat, h.sees_eq]
    cases r.sees [kind] with
    | true => exact ⟨rfl, h.pull⟩
    | false => exact ⟨rfl, h⟩
  | consume kind text =>
    rw [Reader.answer, Reader.answer, consume, consume, hstop]
    exact replied (h.run _) _
  | operation loosest =>
    rw [Reader.answer, Reader.answer, operation, operation, hstop, h.room_eq]
    exact replied (h.run _) _
  | primary =>
    rw [Reader.answer, Reader.answer, primary, primary, hstop, h.room_eq]
    exact replied (h.run _) _
  | statement =>
    rw [Reader.answer, Reader.answer, statement, statement, hstop, h.room_eq]
    exact replied (h.run _) _
  | program =>
    rw [Reader.answer, Reader.answer, program, program, hstop, h.room_eq]
    exact replied (h.run _) _
  | lone =>
    rw [Reader.answer, Reader.answer, lone, lone, hstop, h.room_eq]
    exact replied (h.run _) _

/-- Descents look at the lists themselves, place by place, but from sound places they cannot tell these
apart either. -/
theorem descend (h : r.Twins r') (hr : r.Sound) (c : Call) :
    GoAlike (r.descend c) (r'.descend c) := by
  rw [descend_eq_answer hr, descend_eq_answer (h.sound hr)]
  exact h.answer c

/-- Twins stay twins through any calls, also through those that fail. -/
theorem after (h : r.Twins r') (hr : r.Sound) (calls : List Call) :
    (r.after calls).Twins (r'.after calls) := by
  induction calls generalizing r r' with
  | nil => exact h
  | cons c calls ih => exact ih (h.descend hr c).2 (hr.step c).1

end Twins

theorem twins_ofTokens {tokens tokens' : List Token} (h : EndAlike tokens tokens') (limit : Int) :
    (ofTokens tokens limit).Twins (ofTokens tokens' limit) :=
  ⟨h, rfl, rfl, rfl⟩

end Reader

/-- Tokens without an end, the same tokens with an end at the last of them, and these with any others
behind the end are read alike: as a program, as an expression, as a typed line, and by every call of a
reader after any others, within every limit. Trees, faults and places are the same. -/
theorem nothing_behind_end_is_read (u v : List Token) (hu : ∀ t ∈ u, t.kind ≠ .eof) :
    ∀ tokens ∈ [u ++ [madeEnd u], u ++ madeEnd u :: v],
      parse tokens = parse u ∧ parseExpression tokens = parseExpression u ∧
      parseLine tokens = parseLine u ∧
      ∀ (limit : Int) (calls : List Call) (c : Call),
        let out := ((Reader.ofTokens u limit).after calls).descend c
        let out' := ((Reader.ofTokens tokens limit).after calls).descend c
        out'.1 = out.1 ∧ out'.2.position = out.2.position := by
  intro tokens htokens
  obtain ⟨w, rfl⟩ : ∃ w, tokens = u ++ madeEnd u :: w := by
    simp only [List.mem_cons, List.not_mem_nil, or_false] at htokens
    obtain rfl | rfl := htokens
    · exact ⟨[], rfl⟩
    · exact ⟨v, rfl⟩
  have halike := endAlike_append hu w
  refine ⟨parse_congr halike, parseExpression_congr halike, parseLine_congr halike, ?_⟩
  intro limit calls c
  have hsound := Reader.sound_ofTokens u limit
  have htwins := (Reader.twins_ofTokens halike limit).after hsound calls
  have hcall := htwins.descend (hsound.after calls).1 c
  exact ⟨hcall.1, hcall.2.position_eq⟩

/-- The operand and the parenthesis missing in a group stand behind the end. They are not found there, not
even by a reader that has met the end and tried to take it. -/
theorem nothing_behind_broken_group_is_read :
    let t (kind : Kind) (line col : Int) : Token := ⟨kind, "", ⟨line, col⟩, none⟩
    let u := [t .leftParen 1 1, t .number 1 2, t .plus 2 1]
    let tokens := u ++ madeEnd u :: [t .number 2 2, t .rightParen 2 3, t .semicolon 2 4]
    let fault := Fault.grammar .operand ⟨.eof, "", ⟨2, 1⟩, none⟩
    (∀ x ∈ u, x.kind ≠ .eof) ∧ parse u = .error fault ∧ parse tokens = .error fault ∧
    parseExpression tokens = .error fault ∧ parseLine tokens = .error fault ∧
    (((Reader.ofTokens tokens 2).after [.operation 0, .pull]).descend .statement).1 =
      .error fault := by
  intro t u tokens fault
  have hu : ∀ x ∈ u, x.kind ≠ .eof := by decide
  have hparse : parse u = .error fault := by rfl
  have hexpression : parseExpression u = .error fault := by rfl
  have hline : parseLine u = .error fault := by rfl
  have hcall : (((Reader.ofTokens u 2).after [.operation 0, .pull]).descend .statement).1 =
      .error fault := by decide +kernel
  obtain ⟨hp, he, hl, hc⟩ := nothing_behind_end_is_read u
    [t .number 2 2, t .rightParen 2 3, t .semicolon 2 4] hu tokens (by simp [tokens])
  exact ⟨hu, hparse, hp.trans hparse, he.trans hexpression, hl.trans hline,
    (hc 2 [.operation 0, .pull] .statement).1.trans hcall⟩

end Reckon.Parser
