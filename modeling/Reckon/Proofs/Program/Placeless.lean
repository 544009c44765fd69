import Reckon.Proofs.Node.Fold
import Reckon.Proofs.Program.Failure
import Reckon.Proofs.Program.Relabel

/-! Tokens and trees without their places. Two trees that differ in places only are the same tree once
the places are taken away, so they compare equal, are shown alike and run alike. -/
namespace Reckon

def Relabel.placeless : Relabel := ⟨id, fun _ => ⟨0, 0⟩, fun _ => none⟩

open Relabel (placeless)

theorem placeless_token {s t : Token} :
    placeless.token s = placeless.token t ↔ s.alike t = true := by
  simp [placeless, Relabel.token, Token.alike]

theorem map_placeless_token {tokens tokens' : List Token} :
    tokens.map placeless.token = tokens'.map placeless.token ↔
      List.Forall₂ (fun s t => s.alike t = true) tokens tokens' := by
  rw [map_eq_iff_forall₂]
  simp only [placeless_token]

theorem placeless_lexeme {s t : Token} (h : placeless.token s = placeless.token t) :
    s.lexeme = t.lexeme := by
  have hlexeme := congrArg Token.lexeme h
  exact hlexeme

section Shown
variable {e d : Expr} {s t : Stmt} {p q : List Stmt}

theorem render_expr (e : Expr) (room : Nat) :
    (placeless.expr e).toNode.render room = e.toNode.render room := by
  induction e generalizing room with
  | literal token => cases room <;> rfl
  | unary op right ih =>
    cases room with
    | zero => rfl
    | succ room =>
      simp only [Relabel.expr, Expr.toNode, Node.render, ih]
      rfl
  | binary left op right ihl ihr =>
    cases room with
    | zero => rfl
    | succ room =>
      simp only [Relabel.expr, Expr.toNode, Node.render, ihl, ihr]
      rfl

theorem render_stmt (s : Stmt) (room : Nat) :
    (placeless.stmt s).toNode.render room = s.toNode.render room := by
  cases room with
  | zero => cases s <;> rfl
  | succ room => cases s <;> simp only [Relabel.stmt, Stmt.toNode, Node.render, render_expr]

theorem render?_eq_of_placeless (h : placeless.expr e = placeless.expr d) :
    e.render? = d.render? := by
  rw [Expr.render?, ← render_expr, h, render_expr]
  rfl

theorem renderProgram?_eq_of_placeless (h : p.map placeless.stmt = q.map placeless.stmt) :
    renderProgram? p = renderProgram? q := by
  have hstmt : Stmt.render? ∘ placeless.stmt = Stmt.render? := by
    funext s
    simp only [Function.comp_apply, Stmt.render?, render_stmt]
  have hmap : p.mapM Stmt.render? = q.mapM Stmt.render? := by
    rw [← hstmt, ← List.mapM_map, h, List.mapM_map]
  rw [renderProgram?, hmap]
  rfl

theorem same_of_placeless (h : placeless.expr e = placeless.expr d) :
    Node.same e.toNode d.toNode = true := by
  induction e generalizing d with
  | literal token =>
    cases d with
    | literal token' =>
      have htoken := placeless_lexeme (Expr.literal.inj h)
      simp [Expr.toNode, Node.same, htoken]
    | _ => cases h
  | unary op right ih =>
    cases d with
    | unary op' right' =>
      obtain ⟨hop, hright⟩ := Expr.unary.inj h
      simp [Expr.toNode, Node.same, placeless_lexeme hop, ih hright]
    | _ => cases h
  | binary left op right ihl ihr =>
    cases d with
    | binary left' op' right' =>
      obtain ⟨hleft, hop, hright⟩ := Expr.binary.inj h
      simp [Expr.toNode, Node.same, placeless_lexeme hop, ihl hleft, ihr hright]
    | _ => cases h

theorem same_of_placeless_stmt (h : placeless.stmt s = placeless.stmt t) :
    Node.same s.toNode t.toNode = true := by
  cases s with
  | expression e =>
    cases t with
    | expression d => exact same_of_placeless (Stmt.expression.inj h)
    | print _ _ => cases h
  | print _ e =>
    cases t with
    | expression _ => cases h
    | print _ d => exact same_of_placeless (Stmt.print.inj h).2

end Shown

section Compared
variable {e : Expr} {room : Nat}

theorem height_toNode (e : Expr) : e.toNode.height = e.height := by
  induction e with
  | literal token => rfl
  | unary op right ih => rw [Expr.toNode, Node.height, Expr.height, ih]
  | binary left op right ihl ihr => rw [Expr.toNode, Node.height, Expr.height, ihl, ihr]

theorem same?_expr (h : e.height ≤ room) (d : Expr) :
    Node.same? room e.toNode d.toNode = some (Node.same e.toNode d.toNode) :=
  Node.same?_eq_same ((height_toNode e).trans_le h) d.toNode

/-- Statements within the levels are compared to the end. -/
theorem same?_stmt {s : Stmt} (h : s.expr.height < Node.levels) (t : Stmt) :
    Node.same? Node.levels s.toNode t.toNode = some (Node.same s.toNode t.toNode) := by
  have hheight : s.toNode.height = s.expr.height + 1 := by
    cases s <;> exact congrArg (· + 1) (height_toNode _)
  exact Node.same?_eq_same (hheight.trans_le h) t.toNode

def sameProgram? (p q : List Stmt) : Option Bool :=
  if p.length = q.length then
    (p.zip q).allM fun (s, t) => Node.same? Node.levels s.toNode t.toNode
  else some false

variable {p q : List Stmt}

theorem allM_eq_some {α : Type} {l : List α} {f : α → Option Bool} {g : α → Bool}
    (h : ∀ x ∈ l, f x = some (g x)) : l.allM f = some (l.all g) := by
  induction l with
  | nil => rfl
  | cons x l ih =>
    have htail := ih fun y hy => h y (List.mem_cons_of_mem x hy)
    cases hx : g x <;> simp [List.allM, h x, hx, htail]

/-- The comparison of a program within the levels has an answer, and answers for whole trees. -/
theorem exists_sameProgram? (h : ∀ s ∈ p, s.expr.height < Node.levels) (q : List Stmt) :
    ∃ answer, sameProgram? p q = some answer ∧
      (answer = true ↔ List.Forall₂ (fun s t => Node.same s.toNode t.toNode = true) p q) := by
  rw [List.forall₂_iff_zip]
  by_cases hlength : p.length = q.length
  · have hzip : ∀ x ∈ p.zip q, Node.same? Node.levels x.1.toNode x.2.toNode =
        some (Node.same x.1.toNode x.2.toNode) :=
      fun x hx => same?_stmt (h _ (List.of_mem_zip hx).1) _
    refine ⟨_, by rw [sameProgram?, if_pos hlength]; exact allM_eq_some hzip, ?_⟩
    simp [hlength]
  · exact ⟨false, by rw [sameProgram?, if_neg hlength], by simp [hlength]⟩

end Compared

section Run
variable {style : Style} {s t : Stmt} {p q : List Stmt} {f : Fault} {output : String}
  {values : List Number}

/-- Two programs write the same and have the same values, or the same statement of both is the first
that fails, for the same reason. -/
inductive RunAlike (style : Style) (p q : List Stmt) : Prop
  | ends {output : String} {values : List Number} : execute style p = (output, .ok values) →
      execute style q = (output, .ok values) → RunAlike style p q
  | fails {k : Nat} {output : String} {f g : Fault} : FailsAt style p k output f →
      FailsAt style q k output g → f.text = g.text → RunAlike style p q

theorem keepsNumerals_placeless : placeless.KeepsNumerals := fun _ => rfl

theorem execute_eq_of_placeless (h : p.map placeless.stmt = q.map placeless.stmt)
    (hp : execute style p = (output, .ok values)) : execute style q = (output, .ok values) := by
  have hplaceless := Relabel.execute_stmts keepsNumerals_placeless style p
  rw [h, Relabel.execute_stmts keepsNumerals_placeless style q, hp] at hplaceless
  generalize execute style q = found at hplaceless ⊢
  obtain ⟨written, result⟩ := found
  cases result with
  | ok found => simpa [Except.mapError] using hplaceless
  | error g => simp [Except.mapError] at hplaceless

theorem value_error_of_placeless (h : placeless.stmt s = placeless.stmt t)
    (hs : s.value = .error f) : ∃ g, t.value = .error g ∧ f.text = g.text := by
  have hplaceless := Relabel.value_stmt keepsNumerals_placeless s
  rw [h, Relabel.value_stmt keepsNumerals_placeless t, hs] at hplaceless
  cases ht : t.value with
  | ok x =>
    rw [ht] at hplaceless
    cases hplaceless
  | error g =>
    rw [ht] at hplaceless
    obtain ⟨trouble, token, rfl⟩ := Stmt.value_error hs
    obtain ⟨trouble', token', rfl⟩ := Stmt.value_error ht
    have htrouble : ∀ trouble : Trouble, placeless.trouble trouble = trouble := by
      intro trouble
      cases trouble <;> rfl
    have heq := Except.error.inj hplaceless
    simp only [Relabel.fault, htrouble] at heq
    obtain ⟨rfl, -⟩ := Fault.evaluation.inj heq
    exact ⟨_, rfl, rfl⟩

theorem runAlike_of_placeless (h : p.map placeless.stmt = q.map placeless.stmt) (style : Style) :
    RunAlike style p q := by
  cases hrun : (execute style p).2 with
  | ok values =>
    have hp : execute style p = (_, .ok values) := Prod.ext rfl hrun
    exact .ends hp (execute_eq_of_placeless h hp)
  | error f =>
    obtain ⟨k, hfails⟩ := exists_failsAt (Prod.ext rfl hrun)
    obtain ⟨⟨values, hbefore⟩, s, hs, hvalue⟩ := hfails
    have htake : (p.take k).map placeless.stmt = (q.take k).map placeless.stmt := by
      rw [List.map_take, h, List.map_take]
    have hat : (p[k]?).map placeless.stmt = (q[k]?).map placeless.stmt := by
      rw [← List.getElem?_map, h, List.getElem?_map]
    rw [hs] at hat
    cases ht : q[k]? with
    | none =>
      rw [ht] at hat
      cases hat
    | some t =>
      rw [ht] at hat
      obtain ⟨g, hg, htext⟩ := value_error_of_placeless (Option.some.inj hat) hvalue
      exact .fails ⟨⟨values, hbefore⟩, s, hs, hvalue⟩
        ⟨⟨values, execute_eq_of_placeless htake hbefore⟩, t, ht, hg⟩ htext

end Run

end Reckon
