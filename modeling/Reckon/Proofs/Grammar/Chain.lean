import Reckon.Proofs.Grammar.Recognition

/-! Chains of operands joined by binary operators. The rules fold one tier at a time and never look
for the operator at the root; it is the last of the loosest ones, with the chain before it on its
left and the chain after it on its right. -/
namespace Reckon.Grammar
open Reckon.Parser
variable {m b : Nat} {u : List Token} {e : Expr}

def tightness : Kind → Nat
  | .bangEqual | .equalEqual => 0
  | .greater | .greaterEqual | .less | .lessEqual => 1
  | .plus | .minus => 2
  | .star | .slash => 3
  | _ => 4

def phraseOf : Nat → Phrase
  | 0 => .equality
  | 1 => .comparison
  | 2 => .term
  | 3 => .factor
  | _ => .unary

theorem exists_level (hb : b < 4) :
    ∃ ops, Level (phraseOf b) ops (phraseOf (b + 1)) ∧ ∀ k, tightness k = b → k ∈ ops := by
  match b with
  | 0 => exact ⟨_, .equality, fun k => by cases k <;> decide⟩
  | 1 => exact ⟨_, .comparison, fun k => by cases k <;> decide⟩
  | 2 => exact ⟨_, .term, fun k => by cases k <;> decide⟩
  | 3 => exact ⟨_, .factor, fun k => by cases k <;> decide⟩

theorem Derives.loosen {n : Nat} (h : Derives m (phraseOf n) u e) (hbn : b ≤ n) (hn : n ≤ 4) :
    Derives m (phraseOf b) u e := by
  induction n with
  | zero =>
    obtain rfl : b = 0 := by omega
    exact h
  | succ n ih =>
    obtain rfl | hlt : b = n + 1 ∨ b ≤ n := by omega
    · exact h
    · obtain ⟨ops, hl, -⟩ := exists_level (show n < 4 by omega)
      exact ih (h.alone hl) hlt (by omega)

section Whole

/-- The tokens, read as an operand by themselves, are read to the last one. -/
def ReadWhole (m : Nat) (u : List Token) (e : Expr) : Prop :=
  (Reader.ofTokens u m).operation tiers.length =
    (.ok e, { Reader.ofTokens u m with position := u.length })

theorem ReadWhole.derives (h : ReadWhole m u e) : Derives m .unary u e := by
  have hresult : (operand (stop u) m (body u)).result = .ok e := congrArg Prod.fst h
  have hposition : (body u).length - (operand (stop u) m (body u)).rest.length = u.length :=
    congrArg (fun found => found.2.position) h
  obtain ⟨rest, hdone⟩ := Outcome.result_eq_ok.mp hresult
  obtain ⟨v, hbody, hv, -⟩ := (operand_recognizes _ m).sound hdone
  -- the body is no longer than the tokens, so that nothing of them is left
  have hprefix : body u <+: u := List.takeWhile_prefix _
  have hlength : (body u).length = v.length + rest.length := by rw [hbody, List.length_append]
  have hle := hprefix.length_le
  rw [hdone, Outcome.rest] at hposition
  have hrest : rest = [] := List.length_eq_zero_iff.mp (by omega)
  have hwhole : body u = u := hprefix.eq_of_length (by omega)
  rw [← hwhole, hbody, hrest, List.append_nil]
  exact hv

end Whole

structure Chain where
  tokens : List Token
  tree : Expr
  rounds : List Round

namespace Chain
variable {c : Chain} {before after : List Round} {r : Round} {last : Token}

structure Sound (m : Nat) (c : Chain) : Prop where
  first : ReadWhole m c.tokens c.tree
  operands : ∀ r ∈ c.rounds, ReadWhole m r.tokens r.tree
  operators : ∀ r ∈ c.rounds, tightness r.op.kind < 4

def spelled (c : Chain) : List Token := c.tokens ++ Grammar.spelled c.rounds

def read (m : Nat) (last : Token) (c : Chain) : Except Fault Expr :=
  (Reader.ofTokens (c.spelled ++ [last]) m).lone.1

def upTo (c : Chain) (before : List Round) : Chain := { c with rounds := before }

def past (r : Round) (after : List Round) : Chain := ⟨r.tokens, r.tree, after⟩

structure LastLoosest (before : List Round) (r : Round) (after : List Round) : Prop where
  before : ∀ q ∈ before, tightness r.op.kind ≤ tightness q.op.kind
  after : ∀ q ∈ after, tightness r.op.kind < tightness q.op.kind

theorem exists_lastLoosest {rounds : List Round} (h : rounds ≠ []) :
    ∃ before r after, rounds = before ++ r :: after ∧ LastLoosest before r after := by
  induction rounds with
  | nil => exact absurd rfl h
  | cons q rounds ih =>
    by_cases hnil : rounds = []
    · exact ⟨[], q, [], by rw [hnil]; rfl, by simp, by simp⟩
    · obtain ⟨before, r, after, rfl, hlast⟩ := ih hnil
      by_cases hq : tightness r.op.kind ≤ tightness q.op.kind
      · refine ⟨q :: before, r, after, rfl, ?_, hlast.after⟩
        simpa using ⟨hq, hlast.before⟩
      · -- the first operator is looser than all the others
        refine ⟨[], q, before ++ r :: after, rfl, by simp, fun p hp => ?_⟩
        simp only [List.mem_append, List.mem_cons] at hp
        obtain hp | rfl | hp := hp
        · have hbefore := hlast.before p hp
          omega
        · omega
        · have hafter := hlast.after p hp
          omega

theorem Sound.upTo (h : c.Sound m) (hrounds : c.rounds = before ++ r :: after) :
    (c.upTo before).Sound m where
  first := h.first
  operands q hq := h.operands q (by rw [hrounds]; exact List.mem_append_left _ hq)
  operators q hq := h.operators q (by rw [hrounds]; exact List.mem_append_left _ hq)

theorem Sound.past (h : c.Sound m) (hrounds : c.rounds = before ++ r :: after) :
    (past r after).Sound m where
  first := h.operands r (by simp [hrounds])
  operands q hq := h.operands q (by rw [hrounds]; simp [show q ∈ after from hq])
  operators q hq := h.operators q (by rw [hrounds]; simp [show q ∈ after from hq])

theorem spelled_split (hrounds : c.rounds = before ++ r :: after) :
    c.spelled = (c.upTo before).spelled ++ r.op :: (past r after).spelled := by
  simp [spelled, Chain.upTo, Chain.past, hrounds]

/-- The operands of the last loosest operator make a phrase of its tier, the right one being of a
tighter tier. -/
theorem derives_split {l d : Expr} (hop : tightness r.op.kind < 4)
    (hrounds : c.rounds = before ++ r :: after)
    (hl : Derives m (phraseOf (tightness r.op.kind)) (c.upTo before).spelled l)
    (hd : Derives m (phraseOf (tightness r.op.kind + 1)) (past r after).spelled d) :
    Derives m (phraseOf (tightness r.op.kind)) c.spelled (.binary l r.op d) := by
  obtain ⟨ops, hlevel, hops⟩ := exists_level hop
  rw [spelled_split hrounds]
  exact hl.snoc hlevel (hops _ rfl) hd

/-- A chain without operators looser than the bound is a phrase of the bound. -/
theorem Sound.derives (h : c.Sound m) (hb : b ≤ 4)
    (hbound : ∀ r ∈ c.rounds, b ≤ tightness r.op.kind) :
    ∃ e, Derives m (phraseOf b) c.spelled e := by
  induction hsize : c.rounds.length using Nat.strongRecOn generalizing c b with
  | ind size ih =>
    by_cases hnil : c.rounds = []
    · have hfirst : Derives m (phraseOf 4) c.tokens c.tree := h.first.derives
      refine ⟨c.tree, ?_⟩
      rw [spelled, hnil, spelled_nil, List.append_nil]
      exact hfirst.loosen hb (Nat.le_refl 4)
    · obtain ⟨before, r, after, hrounds, hlast⟩ := exists_lastLoosest hnil
      have hmem : r ∈ c.rounds := by simp [hrounds]
      have hop := h.operators r hmem
      have hlength : before.length + (after.length + 1) = size := by
        rw [← hsize, hrounds, List.length_append, List.length_cons]
      obtain ⟨l, hl⟩ := ih before.length (by omega) (h.upTo hrounds) (by omega) hlast.before rfl
      obtain ⟨d, hd⟩ := ih after.length (by omega) (h.past hrounds) (by omega) hlast.after rfl
      exact ⟨_, (derives_split hop hrounds hl hd).loosen (hbound r hmem) (by omega)⟩

theorem Sound.read_eq_ok (h : c.Sound m) (hlast : last.kind = .eof) :
    c.read m last = .ok e ↔ Derives m (phraseOf 0) c.spelled e := by
  -- the operands and operators derive something, so that no token among them ends the list
  obtain ⟨found, hfound⟩ := h.derives (Nat.zero_le 4) fun _ _ => Nat.zero_le _
  have hbody : body (c.spelled ++ [last]) = c.spelled :=
    body_of_eof (hfound.kind_ne (by decide)) hlast
  rw [read, reader_lone_eq_ok, hbody]
  exact derives_expr_iff

end Chain

/-- A chain of operands, each of which is read whole by itself, is read as an expression. Without an
operator it is its operand; else the root is the last of the loosest operators, which there is, and
its operands are what the chains before and after it are read as. -/
theorem reads_chain_from_last_loosest {m : Nat} {c : Chain} {last : Token} (h : c.Sound m)
    (hlast : last.kind = .eof) :
    (∃ e, c.read m last = .ok e) ∧
    (c.rounds = [] → c.read m last = .ok c.tree) ∧
    (c.rounds ≠ [] → ∃ before r after, c.rounds = before ++ r :: after ∧
      Chain.LastLoosest before r after) ∧
    ∀ before r after, c.rounds = before ++ r :: after → Chain.LastLoosest before r after →
      ∃ l d, (c.upTo before).read m last = .ok l ∧ (Chain.past r after).read m last = .ok d ∧
        c.read m last = .ok (.binary l r.op d) := by
  refine ⟨?_, ?_, Chain.exists_lastLoosest, ?_⟩
  · obtain ⟨e, he⟩ := h.derives (Nat.zero_le 4) fun _ _ => Nat.zero_le _
    exact ⟨e, (h.read_eq_ok hlast).mpr he⟩
  · intro hnil
    have hfirst : Derives m (phraseOf 4) c.tokens c.tree := h.first.derives
    rw [h.read_eq_ok hlast, Chain.spelled, hnil, spelled_nil, List.append_nil]
    exact hfirst.loosen (Nat.zero_le 4) (Nat.le_refl 4)
  · intro before r after hrounds hloosest
    have hop := h.operators r (by simp [hrounds])
    have hleft := h.upTo hrounds
    have hright := h.past hrounds
    obtain ⟨l, hl⟩ := hleft.derives (by omega) hloosest.before
    obtain ⟨d, hd⟩ := hright.derives (by omega) hloosest.after
    refine ⟨l, d, (hleft.read_eq_ok hlast).mpr (hl.loosen (Nat.zero_le _) (by omega)),
      (hright.read_eq_ok hlast).mpr (hd.loosen (Nat.zero_le _) (by omega)), ?_⟩
    rw [h.read_eq_ok hlast]
    exact (Chain.derives_split hop hrounds hl hd).loosen (Nat.zero_le _) (by omega)

/-- The signs before `1` and in the group are none of the operators of the chain; of its two loosest
operators the second is the root. -/
theorem reads_chain_from_second_difference :
    let t (kind : Kind) (lexeme : String) : Token := ⟨kind, lexeme, Pos.start, none⟩
    let number (lexeme : String) : Expr := .literal (t .number lexeme)
    let operand (op : Token) (lexeme : String) : Round := ⟨op, [t .number lexeme], number lexeme⟩
    let negative (lexeme : String) : Expr := .unary (t .minus "-") (number lexeme)
    let group : List Token := [t .leftParen "(", t .minus "-", t .number "4", t .rightParen ")"]
    let before := [operand (t .minus "-") "2", operand (t .star "*") "3"]
    let after := [operand (t .slash "/") "5"]
    let c : Chain := ⟨[t .minus "-", t .number "1"], negative "1",
      before ++ ⟨t .minus "-", group, negative "4"⟩ :: after⟩
    c.Sound 2 ∧
    c.read 2 (t .eof "") = .ok (.binary
      (.binary (negative "1") (t .minus "-") (.binary (number "2") (t .star "*") (number "3")))
      (t .minus "-")
      (.binary (negative "4") (t .slash "/") (number "5"))) := by
  intro t number operand negative group before after c
  have hsound : c.Sound 2 := by
    refine ⟨rfl, ?_, by decide⟩
    simp only [c, before, after, operand, List.cons_append, List.nil_append, List.forall_mem_cons]
    exact ⟨rfl, rfl, rfl, rfl, by simp⟩
  have hloosest : Chain.LastLoosest before ⟨t .minus "-", group, negative "4"⟩ after :=
    ⟨by decide, by decide⟩
  have hlast : (t .eof "").kind = .eof := rfl
  refine ⟨hsound, ?_⟩
  obtain ⟨-, -, -, hsplit⟩ := reads_chain_from_last_loosest hsound hlast
  obtain ⟨l, d, hl, hd, hroot⟩ := hsplit before _ after rfl hloosest
  have hleft : (c.upTo before).read 2 (t .eof "") = .ok (.binary (negative "1") (t .minus "-")
      (.binary (number "2") (t .star "*") (number "3"))) := rfl
  have hright : (Chain.past ⟨t .minus "-", group, negative "4"⟩ after).read 2 (t .eof "") =
      .ok (.binary (negative "4") (t .slash "/") (number "5")) := rfl
  obtain rfl := Except.ok.inj (hleft.symm.trans hl)
  obtain rfl := Except.ok.inj (hright.symm.trans hd)
  exact hroot

end Reckon.Grammar
