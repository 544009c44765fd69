import Mathlib.Data.List.Forall2
import Reckon.Node.Evaluate
import Reckon.Proofs.Program.Execution

/-! The two styles of running statements. Walking an expression writes nothing, whatever the style,
and a statement writes only once its expression has a value. So both styles have the same values or
the same fault at the same statement, and write what the statements before it gave. -/
namespace Reckon

def Halt.stop : Halt → Node.Stop
  | tooDeep => .obstacle .tooDeep
  | fault f => .fault f

namespace Node

namespace Walk
variable {α β : Type}

/-- How a walk ends that starts when `output` is written, and all that is written by then. -/
def runAfter (output : String) (walk : ExceptT Stop (StateM String) α) :
    Except Stop α × String :=
  walk.run.run output

theorem runAfter_bind (output : String) (walk : ExceptT Stop (StateM String) α)
    (next : α → ExceptT Stop (StateM String) β) :
    runAfter output (walk >>= next) =
      match runAfter output walk with
      | (.ok a, written) => runAfter written (next a)
      | (.error stop, written) => (.error stop, written) := by
  rw [runAfter, ExceptT.run_bind, StateT.run_bind, runAfter]
  rcases walk.run.run output with ⟨ending, written⟩
  cases ending <;> rfl

theorem runAfter_tryCatch (output : String) (walk : ExceptT Stop (StateM String) α)
    (handle : Stop → ExceptT Stop (StateM String) α) :
    runAfter output (tryCatch walk handle) =
      match runAfter output walk with
      | (.ok a, written) => (.ok a, written)
      | (.error stop, written) => runAfter written (handle stop) := by
  rw [runAfter, ExceptT.run_tryCatch, StateT.run_bind, runAfter]
  rcases walk.run.run output with ⟨ending, written⟩
  cases ending <;> rfl

theorem runAfter_ofValue (output : String) (x : Except Fault Number) :
    runAfter output (ofValue x) = (x.mapError .fault, output) := by
  cases x <;> rfl

end Walk

open Walk
variable {style : Style} {room : Nat} {output : String}

/-- Walking an expression writes nothing. -/
theorem evaluate_expr (style : Style) (room : Nat) (e : Expr) (output : String) :
    runAfter output (evaluate style room e.toNode) =
      ((e.value room).mapError Halt.stop, output) := by
  induction e generalizing room with
  | literal token =>
    cases room with
    | zero => rfl
    | succ room =>
      rw [Expr.toNode, evaluate, runAfter_ofValue, Expr.value]
      cases literalValue token <;> rfl
  | unary op right ih =>
    cases room with
    | zero => rfl
    | succ room =>
      rw [Expr.toNode, evaluate, runAfter_bind, ih]
      cases hright : right.value room with
      | error halt =>
        rw [Expr.value_unary_error hright]
        rfl
      | ok x =>
        rw [Expr.value_unary_ok hright]
        simp only [Except.mapError, runAfter_ofValue]
        cases unaryValue op x <;> rfl
  | binary left op right ihl ihr =>
    cases room with
    | zero => rfl
    | succ room =>
      rw [Expr.toNode, evaluate, runAfter_bind, ihl]
      cases hleft : left.value room with
      | error halt =>
        rw [Expr.value_binary_left hleft]
        rfl
      | ok x =>
        simp only [Except.mapError, runAfter_bind, ihr]
        cases hright : right.value room with
        | error halt =>
          rw [Expr.value_binary_right hleft hright]
        | ok y =>
          rw [Expr.value_binary_ok hleft hright]
          simp only [runAfter_ofValue]
          cases binaryValue op x y <;> rfl

theorem first?_expr (e : Expr) : e.toNode.first? = some e.first := by
  induction e with
  | literal token => rfl
  | unary op right => rfl
  | binary left op right ih => exact ih

theorem first?_stmt (s : Stmt) : s.toNode.first? = some s.first := by
  cases s with
  | expression e => exact first?_expr e
  | print keyword e => exact first?_expr e

def executeWithin (style : Style) (room : Nat) (node : Node) : Walk Number :=
  tryCatch (evaluate style room node) fun stop =>
    match stop, node.first? with
    | .obstacle .tooDeep, some token => throw (.fault (.evaluation .nesting token))
    | .obstacle .tooDeep, none => throw .tokenless
    | stop, _ => throw stop

theorem execute_eq (style : Style) (node : Node) :
    execute style node = executeWithin style levels node := rfl

end Node

def Stmt.valueWithin (room : Nat) (s : Stmt) : Except Fault Number :=
  match s.expr.value (room - 1) with
  | .ok x => .ok x
  | .error .tooDeep => .error (.evaluation .nesting s.first)
  | .error (.fault f) => .error f

theorem Stmt.value_eq (s : Stmt) : s.value = s.valueWithin Node.levels := rfl

namespace Node
open Walk

theorem evaluate_stmt (style : Style) (room : Nat) (s : Stmt) (output : String) :
    runAfter output (evaluate style room s.toNode) =
      match s.expr.value (room - 1) with
      | .ok x => (.ok x, output ++ style.written s.isPrint x)
      | .error halt => (.error halt.stop, output) := by
  cases room with
  | zero =>
    cases s <;> rfl
  | succ room =>
    cases s with
    | expression e =>
      rw [Stmt.toNode, evaluate, runAfter_bind, evaluate_expr]
      simp only [Stmt.expr, Nat.add_sub_cancel]
      cases e.value room <;> rfl
    | print keyword e =>
      rw [Stmt.toNode, evaluate, runAfter_bind, evaluate_expr]
      simp only [Stmt.expr, Nat.add_sub_cancel]
      cases e.value room <;> rfl

theorem executeWithin_stmt (style : Style) (room : Nat) (s : Stmt) (output : String) :
    runAfter output (executeWithin style room s.toNode) =
      match s.valueWithin room with
      | .ok x => (.ok x, output ++ style.written s.isPrint x)
      | .error f => (.error (.fault f), output) := by
  rw [executeWithin, runAfter_tryCatch, evaluate_stmt, Stmt.valueWithin, first?_stmt]
  cases s.expr.value (room - 1) with
  | ok x => rfl
  | error halt => cases halt <;> rfl

def interpret (style : Style) (room : Nat) (nodes : List Node) :
    ExceptT Stop (StateM String) (List Number) :=
  nodes.mapM (executeWithin style room)

theorem interpret_levels (style : Style) (nodes : List Node) :
    interpret style levels nodes = nodes.mapM (execute style) := by
  have hexecute : execute style = executeWithin style levels := funext (execute_eq style)
  rw [interpret, hexecute]

theorem interpret_cons (style : Style) (room : Nat) (s : Stmt) (nodes : List Node)
    (output : String) :
    runAfter output (interpret style room (s.toNode :: nodes)) =
      match s.valueWithin room with
      | .ok x =>
        let (ending, written) :=
          runAfter (output ++ style.written s.isPrint x) (interpret style room nodes)
        (ending.map (x :: ·), written)
      | .error f => (.error (.fault f), output) := by
  rw [interpret, List.mapM_cons, runAfter_bind, executeWithin_stmt]
  cases s.valueWithin room with
  | error f => rfl
  | ok x =>
    simp only [runAfter_bind, interpret]
    generalize runAfter _ (nodes.mapM (executeWithin style room)) = found
    obtain ⟨ending, written⟩ := found
    cases ending <;> rfl

end Node

section Run
open Node Node.Walk
variable {room : Nat} {s : Stmt} {p : List Stmt} {x : Number} {values : List Number}

def printed (p : List Stmt) (values : List Number) : String :=
  String.join ((p.zip values).filterMap fun (s, x) => if s.isPrint then some x.text else none)

def listed (values : List Number) : String :=
  String.join (values.map fun x => x.text ++ "\n")

def Style.gathered (style : Style) (p : List Stmt) (values : List Number) : String :=
  match style with
  | plain => printed p values
  | echo => listed values

theorem Style.gathered_nil (style : Style) (p : List Stmt) : style.gathered p [] = "" := by
  cases style <;> simp [gathered, printed, listed]

theorem Style.gathered_cons (style : Style) (s : Stmt) (p : List Stmt) (x : Number)
    (values : List Number) :
    style.gathered (s :: p) (x :: values) =
      style.written s.isPrint x ++ style.gathered p values := by
  cases style with
  | plain => cases h : s.isPrint <;> simp [gathered, printed, written, h]
  | echo => simp [gathered, listed, written]

/-- How statements end of which the first ones have the values: these are all, or the next one
fails. -/
inductive RunEnding (room : Nat) (p : List Stmt) (values : List Number) :
    Except Stop (List Number) → Prop
  | completed : List.Forall₂ (fun s x => s.valueWithin room = .ok x) p values →
      RunEnding room p values (.ok values)
  | failed {before after : List Stmt} {s : Stmt} {f : Fault} : p = before ++ s :: after →
      List.Forall₂ (fun s x => s.valueWithin room = .ok x) before values →
      s.valueWithin room = .error f → RunEnding room p values (.error (.fault f))

theorem RunEnding.cons {ending : Except Stop (List Number)} (hs : s.valueWithin room = .ok x)
    (h : RunEnding room p values ending) :
    RunEnding room (s :: p) (x :: values) (ending.map (x :: ·)) := by
  cases h with
  | completed hvalues => exact .completed (.cons hs hvalues)
  | @failed before after r f hp hvalues hr =>
    exact .failed (by rw [hp, List.cons_append]) (.cons hs hvalues) hr

theorem exists_ending (room : Nat) (p : List Stmt) :
    ∃ values ending, RunEnding room p values ending ∧ ∀ style output,
      runAfter output (interpret style room (p.map Stmt.toNode)) =
        (ending, output ++ style.gathered p values) := by
  induction p with
  | nil =>
    refine ⟨[], .ok [], .completed .nil, fun style output => ?_⟩
    rw [Style.gathered_nil, String.append_empty]
    rfl
  | cons s p ih =>
    cases hs : s.valueWithin room with
    | error f =>
      refine ⟨[], .error (.fault f), .failed rfl .nil hs, fun style output => ?_⟩
      rw [List.map_cons, interpret_cons, hs, Style.gathered_nil, String.append_empty]
    | ok x =>
      obtain ⟨values, ending, hending, hrun⟩ := ih
      refine ⟨x :: values, _, hending.cons hs, fun style output => ?_⟩
      rw [List.map_cons, interpret_cons, hs, Style.gathered_cons]
      simp only [hrun, String.append_assoc]

/-- Running a program is walking the trees of its statements. -/
theorem interpret_eq_execute (style : Style) (p : List Stmt) (output : String) :
    runAfter output (interpret style levels (p.map Stmt.toNode)) =
      ((execute style p).2.mapError .fault, output ++ (execute style p).1) := by
  induction p generalizing output with
  | nil =>
    rw [execute, String.append_empty]
    rfl
  | cons s p ih =>
    rw [List.map_cons, interpret_cons, ← Stmt.value_eq]
    cases hs : s.value with
    | error f =>
      rw [execute_cons_error hs, String.append_empty]
      rfl
    | ok x =>
      rw [execute_cons_ok hs]
      simp only [ih, String.append_assoc]
      cases (execute style p).2 <;> rfl

/-- Whatever the number of levels, statements walked in the two styles end alike: with the values of
all of them, or with the fault of the first that has none. Of those completed, one style writes the
values of the print statements and the other every value on a line. A program runs as its trees are
executed one after another. -/
theorem styles_differ_in_writing_only (room : Nat) (p : List Stmt) :
    (∃ values ending, RunEnding room p values ending ∧
      runAfter "" (interpret .plain room (p.map Stmt.toNode)) = (ending, printed p values) ∧
      runAfter "" (interpret .echo room (p.map Stmt.toNode)) = (ending, listed values)) ∧
    ∀ style,
      interpret style levels (p.map Stmt.toNode) = (p.map Stmt.toNode).mapM (Node.execute style) ∧
      runAfter "" (interpret style levels (p.map Stmt.toNode)) =
        ((execute style p).2.mapError .fault, (execute style p).1) := by
  constructor
  · obtain ⟨values, ending, hending, hrun⟩ := exists_ending room p
    refine ⟨values, ending, hending, ?_, ?_⟩
    · rw [hrun, String.empty_append]
      rfl
    · rw [hrun, String.empty_append]
      rfl
  · intro style
    refine ⟨interpret_levels style _, ?_⟩
    rw [interpret_eq_execute, String.empty_append]

end Run

end Reckon
