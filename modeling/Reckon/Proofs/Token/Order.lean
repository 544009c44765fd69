import Mathlib.Data.Prod.Lex
import Reckon.Proofs.Token.Taking

/-! The order of places. A text moves the place forward, so the tokens of a text stand one behind the
other. -/
namespace Reckon

namespace Pos
variable {p : Pos} {text : List Char}

def rank (p : Pos) : ℤ ×ₗ ℤ := toLex (p.line, p.col)

theorem rank_lt {p q : Pos} :
    p.rank < q.rank ↔ p.line < q.line ∨ p.line = q.line ∧ p.col < q.col :=
  Prod.Lex.toLex_lt_toLex

theorem rank_lt_after (p : Pos) (c : Char) : p.rank < (p.after c).rank := by
  rw [rank_lt, after]
  split
  · exact .inl (Int.lt_succ p.line)
  · exact .inr ⟨rfl, Int.lt_succ p.col⟩

theorem rank_le_past (p : Pos) (text : List Char) : p.rank ≤ (p.past text).rank := by
  induction text generalizing p with
  | nil => exact le_rfl
  | cons c text ih => exact (rank_lt_after p c).le.trans (ih (p.after c))

theorem rank_lt_past (p : Pos) (h : text ≠ []) : p.rank < (p.past text).rank := by
  obtain ⟨c, text, rfl⟩ := List.exists_cons_of_ne_nil h
  exact (rank_lt_after p c).trans_le (rank_le_past _ text)

end Pos

theorem Piece.token_pos (p : Pos) (piece : Piece) : (piece.token p).pos = p := by
  cases piece <;> rfl

def InOrder (tokens : List Token) : Prop := tokens.Pairwise fun s t => s.pos.rank < t.pos.rank

namespace Lexer
variable {p : Pos} {text : List Char}

/-- The place of a token is that after the text before it. -/
theorem exists_past (p : Pos) (text : List Char) :
    ∀ t ∈ tokens p text, ∃ before, t.pos = p.past before := by
  induction p, text using tokens.induct with
  | case1 p text h =>
    rw [tokens_last h]
    intro t ht
    obtain rfl := List.mem_singleton.mp ht
    exact ⟨text, rfl⟩
  | case2 p text start c rest h found hshorter ih =>
    rw [tokens_piece h]
    intro t ht
    cases ht with
    | head => exact ⟨_, Piece.token_pos _ _⟩
    | tail _ ht =>
      obtain ⟨before, hbefore⟩ := ih t ht
      exact ⟨(splitGap false text).1 ++ (found.1.text ++ before), by simp [hbefore, start]⟩

theorem rank_le_tokens (p : Pos) (text : List Char) :
    ∀ t ∈ tokens p text, p.rank ≤ t.pos.rank := by
  intro t ht
  obtain ⟨before, hbefore⟩ := exists_past p text t ht
  rw [hbefore]
  exact p.rank_le_past before

/-- A token has text of its own, so the next one stands behind it. -/
theorem tokens_inOrder (p : Pos) (text : List Char) : InOrder (tokens p text) := by
  induction p, text using tokens.induct with
  | case1 p text h =>
    rw [tokens_last h]
    exact List.pairwise_singleton _ _
  | case2 p text start c rest h found hshorter ih =>
    rw [tokens_piece h]
    refine List.pairwise_cons.mpr ⟨fun t ht => ?_, ih⟩
    rw [Piece.token_pos]
    exact (start.rank_lt_past (Piece.text_ne_nil c rest)).trans_le (rank_le_tokens _ _ t ht)

/-- Lines and columns are counted from 1. -/
theorem tokenize_counted (source : String) :
    ∀ t ∈ tokenize source, 1 ≤ t.pos.line ∧ 1 ≤ t.pos.col := by
  intro t ht
  obtain ⟨before, hbefore⟩ := exists_past Pos.start source.toList t ht
  rw [hbefore, Pos.start_past]
  simp only [Pos.counted]
  omega

end Lexer
end Reckon
