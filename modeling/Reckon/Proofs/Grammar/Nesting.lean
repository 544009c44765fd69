import Mathlib.Data.List.DropRight
import Reckon.Proofs.Grammar.Recognition

/-! What is open between two tokens of a phrase, found by passing over the tokens before. The bound of
a derivation is about just this: where so many groups and signs are open, a number or group stands
that is derived within what is left of the bound, and any other such phrase can stand there. -/
namespace Reckon.Grammar

structure Standing where
  opened : List Kind
  due : Bool
deriving DecidableEq, Repr

namespace Standing

def start : Standing := ⟨[], true⟩

def closed (opened : List Kind) : List Kind := opened.dropWhile (· ∈ Kind.signs)

/-- Where an operand is due, signs and parentheses open, and a number is one. After an operand a
parenthesis closes the innermost group, and any other token makes an operand due. -/
def after (s : Standing) (t : Token) : Standing :=
  if s.due then
    if t.kind = .number then ⟨closed s.opened, false⟩
    else if t.kind = .leftParen ∨ t.kind ∈ Kind.signs then ⟨t.kind :: s.opened, true⟩
    else s
  else if t.kind = .rightParen then ⟨closed s.opened.tail, false⟩
  else ⟨s.opened, true⟩

def past (s : Standing) (u : List Token) : Standing := u.foldl after s

end Standing

def nesting (u : List Token) : Nat := (Standing.start.past u).opened.length

/-- In `u ++ t :: v` the token `t` starts a number or group within the bound `n`, and in its place any
other one makes a phrase too. -/
def Replaceable {α : Type} (R : List Token → α → Prop) (n : Nat) (u : List Token) (t : Token)
    (v : List Token) : Prop :=
  ∃ p q, v = p ++ q ∧ (∃ e, Derives n .primary (t :: p) e) ∧
    ∀ w d, Derives n .primary w d → ∃ a, R (u ++ (w ++ q)) a

def StartsPrimary (t : Token) : Prop := t.kind = .number ∨ t.kind = .leftParen

variable {α β : Type} {m n : Nat} {x y : Phrase} {ops opened : List Kind} {t : Token}
  {u v w : List Token} {e : Expr} {s : Stmt} {p : List Stmt} {rounds : List Round}
  {R : List Token → α → Prop} {S : List Token → β → Prop}

namespace Standing

theorem past_append (s : Standing) (u v : List Token) : s.past (u ++ v) = (s.past u).past v :=
  List.foldl_append

theorem past_cons (s : Standing) (t : Token) (u : List Token) : s.past (t :: u) = (s.after t).past u :=
  rfl

theorem closed_closed (opened : List Kind) : closed (closed opened) = closed opened :=
  List.dropWhile_idempotent _ _

theorem after_number (ht : t.kind = .number) :
    after ⟨opened, true⟩ t = ⟨closed opened, false⟩ := by
  simp [after, ht]

theorem after_opening (ht : t.kind = .leftParen ∨ t.kind ∈ Kind.signs) :
    after ⟨opened, true⟩ t = ⟨t.kind :: opened, true⟩ := by
  have hnumber : t.kind ≠ .number := by
    intro h
    rw [h] at ht
    exact absurd ht (by decide)
  simp [after, hnumber, ht]

theorem after_closing (ht : t.kind = .rightParen) :
    after ⟨opened, false⟩ t = ⟨closed opened.tail, false⟩ := by
  simp [after, ht]

theorem after_operator (ht : t.kind ≠ .rightParen) :
    after ⟨opened, false⟩ t = ⟨opened, true⟩ := by
  simp [after, ht]

end Standing

open Standing

theorem Level.apart (h : Level x ops y) : ∀ k ∈ ops, k ∉ [.number, .leftParen, .rightParen] := by
  cases h <;> decide

theorem Level.ne_rightParen (h : Level x ops y) : ∀ k ∈ ops, k ≠ .rightParen := by
  cases h <;> decide

theorem past_spelled (hops : ∀ r ∈ rounds, r.op.kind ≠ .rightParen)
    (hrounds : ∀ r ∈ rounds, past ⟨opened, true⟩ r.tokens = ⟨opened, false⟩) :
    past ⟨opened, false⟩ (spelled rounds) = ⟨opened, false⟩ := by
  induction rounds with
  | nil => rfl
  | cons r rounds ih =>
    obtain ⟨hop, hops⟩ := List.forall_mem_cons.mp hops
    obtain ⟨hround, hrounds⟩ := List.forall_mem_cons.mp hrounds
    rw [spelled_cons, past_cons, after_operator hop, past_append, hround, ih hops hrounds]

/-- After a phrase its signs and groups are closed, and so are the signs before it. -/
theorem Derives.past_eq (h : Derives m x u e) (opened : List Kind) :
    Standing.past ⟨opened, true⟩ u = ⟨closed opened, false⟩ := by
  induction h generalizing opened with
  | expr _ ih => exact ih opened
  | level rounds hl _ hops _ ih ihs =>
    rw [past_append, ih, past_spelled fun r hr => hl.ne_rightParen _ (hops r hr)]
    intro r hr
    rw [ihs r hr, closed_closed]
  | @signed m op u e hop _ ih =>
    have hsign := Parser.mem_signs.mpr hop
    rw [past_cons, after_opening (.inr hsign), ih]
    simp [closed, hsign]
  | unsigned _ ih => exact ih opened
  | number ht => exact after_number ht
  | @group m opening u closing e hopening _ hclosing ih =>
    have hinside : closed (opening.kind :: opened) = opening.kind :: opened := by
      rw [hopening]
      rfl
    rw [past_cons, after_opening (.inl hopening), past_append, ih, hinside]
    exact after_closing hclosing

/-- The operands before the one at hand leave what is open as it was. -/
theorem past_round {before : List Round} {op : Token} (hl : Level x ops y)
    (hsettled : closed opened = opened) (hfirst : Derives m y u e) (hop : op.kind ∈ ops)
    (hops : ∀ r ∈ before, r.op.kind ∈ ops)
    (hrounds : ∀ r ∈ before, Derives m y r.tokens r.tree) (b : List Token) :
    past ⟨opened, true⟩ (u ++ (spelled before ++ op :: b)) = past ⟨opened, true⟩ b := by
  have hbefore : ∀ r ∈ before, past ⟨opened, true⟩ r.tokens = ⟨opened, false⟩ := by
    intro r hr
    rw [(hrounds r hr).past_eq, hsettled]
  rw [past_append, hfirst.past_eq, hsettled, past_append,
    past_spelled (fun r hr => hl.ne_rightParen _ (hops r hr)) hbefore, past_cons,
    after_operator (hl.ne_rightParen _ hop)]

theorem Statement.past_eq (h : Statement m u s) : start.past u = start := by
  cases h with
  | @print keyword u e semicolon hprint he hkind =>
    have hsemicolon : semicolon.kind ≠ .rightParen := by simp [hkind]
    have hkeyword : after start keyword = start := by simp [after, start, hprint, Kind.signs]
    rw [past_cons, hkeyword, past_append, start, he.past_eq]
    exact after_operator hsemicolon
  | @expression u e semicolon he hkind =>
    have hsemicolon : semicolon.kind ≠ .rightParen := by simp [hkind]
    rw [past_append, start, he.past_eq]
    exact after_operator hsemicolon

section Replacing

theorem StartsPrimary.cases (ht : StartsPrimary t) :
    t.kind ∉ Kind.signs ∧ t.kind ≠ .rightParen ∧ t.kind ∈ [.number, .leftParen, .rightParen] := by
  obtain h | h := ht <;> rw [h] <;> decide

theorem Replaceable.within (h : Replaceable R n u t v) (l r : List Token)
    (hRS : ∀ {w a}, R w a → ∃ b, S (l ++ (w ++ r)) b) :
    Replaceable S n (l ++ u) t (v ++ r) := by
  obtain ⟨p, q, rfl, hprimary, hreplace⟩ := h
  refine ⟨p, q ++ r, by simp, hprimary, fun w d hw => ?_⟩
  obtain ⟨a, ha⟩ := hreplace w d hw
  obtain ⟨b, hb⟩ := hRS ha
  exact ⟨b, by simpa using hb⟩

theorem Replaceable.mono (h : Replaceable R n u t v) (hRS : ∀ {w a}, R w a → ∃ b, S w b) :
    Replaceable S n u t v := by
  obtain ⟨p, q, rfl, hprimary, hreplace⟩ := h
  exact ⟨p, q, rfl, hprimary, fun w d hw => hRS (hreplace w d hw).choose_spec⟩

/-- A token of a list in two parts stands in one of them. -/
theorem append_eq_around {a b : List Token} (h : a ++ b = u ++ t :: v) :
    (∃ c, a = u ++ t :: c ∧ v = c ++ b) ∨ ∃ c, u = a ++ c ∧ b = c ++ t :: v := by
  obtain ⟨c, rfl, hb⟩ | ⟨c, rfl, hv⟩ := List.append_eq_append_iff.mp h
  · exact .inr ⟨c, rfl, hb⟩
  · cases c with
    | nil => exact .inr ⟨[], by simp, hv.symm⟩
    | cons t' c =>
      obtain ⟨rfl, rfl⟩ := List.cons.inj hv
      exact .inl ⟨c, rfl, rfl⟩

theorem concat_eq_around {last : Token} (hlast : last ≠ t) (h : w ++ [last] = u ++ t :: v) :
    ∃ c, w = u ++ t :: c ∧ v = c ++ [last] := by
  obtain hfirst | ⟨c, -, hsecond⟩ := append_eq_around h
  · exact hfirst
  · have ht : t ∈ [last] := by simp [hsecond]
    exact absurd (List.mem_singleton.mp ht).symm hlast

/-- A token that is no operator of the rounds is in the operand of one of them. -/
theorem spelled_eq_append {a : List Token} (ht : ∀ r ∈ rounds, r.op.kind ≠ t.kind)
    (h : spelled rounds = a ++ t :: v) :
    ∃ before r after b c, rounds = before ++ r :: after ∧ r.tokens = b ++ t :: c ∧
      a = spelled before ++ r.op :: b ∧ v = c ++ spelled after := by
  induction rounds generalizing a with
  | nil => simp at h
  | cons r rounds ih =>
    obtain ⟨hr, hrounds⟩ := List.forall_mem_cons.mp ht
    rw [spelled_cons] at h
    cases a with
    | nil =>
      obtain ⟨rfl, -⟩ := List.cons.inj h
      exact absurd rfl hr
    | cons op a =>
      obtain ⟨rfl, heq⟩ := List.cons.inj h
      obtain ⟨c, hround, rfl⟩ | ⟨b, rfl, hmore⟩ := append_eq_around heq
      · exact ⟨[], r, rounds, a, c, rfl, hround, rfl, rfl⟩
      · obtain ⟨before, r', after, b', c, rfl, hround, rfl, rfl⟩ := ih hrounds hmore
        exact ⟨r :: before, r', after, b', c, rfl, hround, by simp, rfl⟩

/-- What can be replaced in the first operand of a rule can be in its phrase. -/
theorem Replaceable.first {b c : List Token} (h : Replaceable (Derives m y) n b t c) (hl : Level x ops y)
    (hops : ∀ r ∈ rounds, r.op.kind ∈ ops) (hrounds : ∀ r ∈ rounds, Derives m y r.tokens r.tree) :
    Replaceable (Derives m x) n b t (c ++ spelled rounds) :=
  h.within [] (spelled rounds) fun {_ d} hd => ⟨folded d rounds, .level rounds hl hd hops hrounds⟩

/-- What can be replaced in the operand of a round can be in the phrase. -/
theorem Replaceable.round {before after : List Round} {op : Token} {b c : List Token}
    (h : Replaceable (Derives m y) n b t c) (hl : Level x ops y) (hfirst : Derives m y u e)
    (hop : op.kind ∈ ops) (hops : ∀ r ∈ before ++ after, r.op.kind ∈ ops)
    (hrounds : ∀ r ∈ before ++ after, Derives m y r.tokens r.tree) :
    Replaceable (Derives m x) n (u ++ (spelled before ++ op :: b)) t (c ++ spelled after) := by
  have hphrase : ∀ {w d}, Derives m y w d →
      ∃ e', Derives m x (u ++ (spelled before ++ [op]) ++ (w ++ spelled after)) e' := by
    intro w d hd
    have hnew := Derives.level (before ++ ⟨op, w, d⟩ :: after) hl hfirst
      (by simpa [or_imp, forall_and, hop] using hops)
      (by simpa [or_imp, forall_and, hd] using hrounds)
    exact ⟨_, by simpa using hnew⟩
  simpa using h.within (u ++ (spelled before ++ [op])) (spelled after) hphrase

/-- In a phrase that stands where `opened` is open, a number or group stands within what the groups and
signs around it leave of the bound. Signs before a sum would end with its first operand, so only a
phrase without operators may follow them. -/
theorem Derives.replaceable (h : Derives m x w e) (hw : w = u ++ t :: v) (ht : StartsPrimary t)
    (hx : x = .unary ∨ x = .primary ∨ closed opened = opened) :
    ∃ n, (Standing.past ⟨opened, true⟩ u).opened.length + n = opened.length + m ∧
      Replaceable (Derives m x) n u t v := by
  obtain ⟨hsign, hparen, hprimary⟩ := ht.cases
  induction h generalizing u v opened with
  | expr _ ih =>
    obtain ⟨n, hn, hreplace⟩ := ih hw (.inr (.inr (by simpa using hx)))
    exact ⟨n, hn, hreplace.mono fun hd => ⟨_, .expr hd⟩⟩
  | @level m x ops y first e rounds hl hfirst hops hrounds ih ihs =>
    have hsettled : closed opened = opened := by
      cases hl <;> simpa using hx
    have hinside : y = .unary ∨ y = .primary ∨ closed opened = opened := .inr (.inr hsettled)
    have hother : ∀ r ∈ rounds, r.op.kind ≠ t.kind := by
      intro r hr heq
      exact hl.apart _ (hops r hr) (heq ▸ hprimary)
    obtain ⟨c, rfl, rfl⟩ | ⟨a, rfl, hspelled⟩ := append_eq_around hw
    · obtain ⟨n, hn, hreplace⟩ := ih rfl hinside
      exact ⟨n, hn, hreplace.first hl hops hrounds⟩
    · obtain ⟨before, r, after, b, c, rfl, hround, rfl, rfl⟩ := spelled_eq_append hother hspelled
      simp only [List.forall_mem_append, List.forall_mem_cons] at hops hrounds ihs
      obtain ⟨hbefore, hop, hafter⟩ := hops
      obtain ⟨n, hn, hreplace⟩ := ihs.2.1 hround hinside
      refine ⟨n, ?_, hreplace.round hl hfirst hop (List.forall_mem_append.mpr ⟨hbefore, hafter⟩)
        (List.forall_mem_append.mpr ⟨hrounds.1, hrounds.2.2⟩)⟩
      rw [past_round hl hsettled hfirst hop hbefore hrounds.1, hn]
  | @signed m op w e hop _ ih =>
    cases u with
    | nil =>
      obtain ⟨rfl, -⟩ := List.cons.inj hw
      exact absurd (Parser.mem_signs.mpr hop) hsign
    | cons op' u =>
      obtain ⟨rfl, hrest⟩ := List.cons.inj hw
      have hinside : Phrase.unary = .unary ∨ Phrase.unary = .primary ∨
          closed (op.kind :: opened) = op.kind :: opened := .inl rfl
      obtain ⟨n, hn, hreplace⟩ := ih hrest hinside
      refine ⟨n, ?_, ?_⟩
      · rw [past_cons, after_opening (.inr (Parser.mem_signs.mpr hop)), hn, List.length_cons]
        omega
      · have hphrase : ∀ {w d}, Derives m .unary w d →
            ∃ e, Derives (m + 1) .unary ([op] ++ (w ++ [])) e := fun {w d} hd =>
          ⟨.unary op d, by simpa using Derives.signed hop hd⟩
        simpa using hreplace.within [op] [] hphrase
  | unsigned _ ih =>
    obtain ⟨n, hn, hreplace⟩ := ih hw (.inr (.inl rfl))
    exact ⟨n, hn, hreplace.mono fun hd => ⟨_, .unsigned hd⟩⟩
  | @number m t' hnumber =>
    cases u with
    | nil =>
      obtain ⟨rfl, rfl⟩ := List.cons.inj hw
      exact ⟨m, rfl, [], [], rfl, ⟨_, .number hnumber⟩, fun w d hd => ⟨d, by simpa using hd⟩⟩
    | cons _ u => simp at hw
  | @group m opening w closing e hopening _ hclosing ih =>
    cases u with
    | nil =>
      obtain ⟨rfl, rfl⟩ := List.cons.inj hw
      exact ⟨m + 1, rfl, w ++ [closing], [], by simp, ⟨e, .group hopening ‹_› hclosing⟩,
        fun w d hd => ⟨d, by simpa using hd⟩⟩
    | cons opening' u =>
      obtain ⟨rfl, hrest⟩ := List.cons.inj hw
      -- the closing parenthesis is the last token, so it is in `v`
      have hlast : closing ≠ t := fun heq => hparen (by rw [← heq, hclosing])
      obtain ⟨v, rfl, rfl⟩ := concat_eq_around hlast hrest
      have hinside : Phrase.expr = .unary ∨ Phrase.expr = .primary ∨
          closed (opening.kind :: opened) = opening.kind :: opened := by
        rw [hopening]
        exact .inr (.inr rfl)
      obtain ⟨n, hn, hreplace⟩ := ih rfl hinside
      refine ⟨n, ?_, ?_⟩
      · rw [past_cons, after_opening (.inl hopening), hn, List.length_cons]
        omega
      · exact hreplace.within [opening] [closing] fun {_ d} hd => ⟨d, .group hopening hd hclosing⟩

end Replacing

section Nested

theorem Derives.group_room (h : Derives m .primary u e) (hu : u = t :: v) (ht : t.kind = .leftParen) :
    m ≠ 0 := by
  cases h with
  | number hnumber =>
    obtain ⟨rfl, -⟩ := List.cons.inj hu
    simp [ht] at hnumber
  | group => exact Nat.succ_ne_zero _
  | level _ hl => cases hl

def Nested (R : List Token → α → Prop) (m : Nat) : Prop :=
  ∀ {u t v a}, R (u ++ t :: v) a → StartsPrimary t →
    ∃ n, nesting u + n = m ∧ Replaceable R n u t v

theorem expr_nested (m : Nat) : Nested (Derives m .expr) m := by
  intro u t v e h ht
  have hsettled : closed [] = [] := rfl
  obtain ⟨n, hn, hreplace⟩ := h.replaceable rfl ht (.inr (.inr hsettled))
  exact ⟨n, hn.trans (Nat.zero_add m), hreplace⟩

theorem statement_nested (m : Nat) : Nested (Statement m) m := by
  intro u t v s h ht
  obtain ⟨-, hparen, hprimary⟩ := ht.cases
  have hlast : ∀ {last : Token}, last.kind = .semicolon → last ≠ t := by
    rintro last hkind rfl
    rw [hkind] at hprimary
    exact absurd hprimary (by decide)
  generalize hw : u ++ t :: v = w at h
  cases h with
  | @print keyword w e semicolon hprint he hkind =>
    cases u with
    | nil =>
      obtain ⟨rfl, -⟩ := List.cons.inj hw
      rw [hprint] at hprimary
      exact absurd hprimary (by decide)
    | cons keyword' u =>
      obtain ⟨rfl, hrest⟩ := List.cons.inj hw
      obtain ⟨c, rfl, rfl⟩ := concat_eq_around (hlast hkind) hrest.symm
      obtain ⟨n, hn, hreplace⟩ := expr_nested m he ht
      have hkeyword : after start keyword' = start := by simp [after, start, hprint, Kind.signs]
      refine ⟨n, ?_, hreplace.within [keyword'] [semicolon] ?_⟩
      · rw [nesting, past_cons, hkeyword]
        exact hn
      · intro w d hd
        exact ⟨_, .print hprint hd hkind⟩
  | @expression w e semicolon he hkind =>
    obtain ⟨c, rfl, rfl⟩ := concat_eq_around (hlast hkind) hw.symm
    obtain ⟨n, hn, hreplace⟩ := expr_nested m he ht
    exact ⟨n, hn, hreplace.within [] [semicolon] fun {_ d} hd => ⟨_, .expression hd hkind⟩⟩

theorem program_nested (m : Nat) : Nested (Program m) m := by
  intro u t v p h ht
  generalize hw : u ++ t :: v = w at h
  induction h generalizing u with
  | nil => simp at hw
  | @cons w s w' p hs hp ih =>
    obtain ⟨c, rfl, rfl⟩ | ⟨c, rfl, rfl⟩ := append_eq_around hw.symm
    · obtain ⟨n, hn, hreplace⟩ := statement_nested m hs ht
      refine ⟨n, hn, hreplace.within [] w' ?_⟩
      intro w s hs
      have hprogram := Program.cons hs hp
      exact ⟨s :: p, hprogram⟩
    · obtain ⟨n, hn, hreplace⟩ := ih rfl
      refine ⟨n, ?_, ?_⟩
      · rw [nesting, past_append, hs.past_eq]
        exact hn
      · have hprogram : ∀ {w' p}, Program m w' p → ∃ q, Program m (w ++ (w' ++ [])) q := by
          intro w' p hp
          exact ⟨s :: p, by simpa using Program.cons hs hp⟩
        simpa using hreplace.within w [] hprogram

end Nested

end Reckon.Grammar
