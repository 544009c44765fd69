import Reckon.Program.Eval

/-! Evaluating operands before their operator, and running statements one after another. A run of two
programs in a row is the run of the first, and unless that fails, the run of the second after it. -/
namespace Reckon

section Errors
variable {α ε ε' : Type} {found : Except ε α} {rename : ε → ε'}

@[simp] theorem mapError_eq_ok {a : α} : found.mapError rename = .ok a ↔ found = .ok a := by
  cases found with
  | ok b =>
    constructor
    · intro h
      exact congrArg _ (Except.ok.inj h)
    · intro h
      exact congrArg _ (Except.ok.inj h)
  | error cause => exact ⟨nofun, nofun⟩

@[simp] theorem mapError_eq_error {e : ε'} :
    found.mapError rename = .error e ↔ ∃ cause, found = .error cause ∧ rename cause = e := by
  cases found with
  | ok a => exact ⟨nofun, fun ⟨_, h, _⟩ => nomatch h⟩
  | error cause =>
    constructor
    · intro h
      exact ⟨cause, rfl, Except.error.inj h⟩
    · rintro ⟨_, h, hrename⟩
      cases h
      exact congrArg _ hrename

end Errors

namespace Expr
variable {room : Nat} {left right : Expr} {op : Token} {x y : Number} {halt : Halt}

theorem value_unary_ok (h : right.value room = .ok x) :
    (unary op right).value (room + 1) = (unaryValue op x).mapError .fault := by
  rw [value, h]
  rfl

theorem value_unary_error (h : right.value room = .error halt) :
    (unary op right).value (room + 1) = .error halt := by
  rw [value, h]
  rfl

theorem value_binary_ok (hl : left.value room = .ok x) (hr : right.value room = .ok y) :
    (binary left op right).value (room + 1) = (binaryValue op x y).mapError .fault := by
  rw [value, hl, hr]
  rfl

theorem value_binary_left (hl : left.value room = .error halt) :
    (binary left op right).value (room + 1) = .error halt := by
  rw [value, hl]
  rfl

theorem value_binary_right (hl : left.value room = .ok x) (hr : right.value room = .error halt) :
    (binary left op right).value (room + 1) = .error halt := by
  rw [value, hl, hr]
  rfl

end Expr

section Evaluation
variable {f : Fault} {token op : Token} {x y : Number}

def Fault.Evaluated (f : Fault) : Prop := ∃ trouble token, f = .evaluation trouble token

theorem literalValue_error (h : literalValue token = .error f) : f.Evaluated := by
  unfold literalValue at h
  split at h
  · cases h
  · cases h
    exact ⟨_, _, rfl⟩

theorem unaryValue_error (h : unaryValue op x = .error f) : f.Evaluated := by
  unfold unaryValue at h
  split at h
  · cases h
  · cases h
  · cases h
    exact ⟨_, _, rfl⟩

theorem binaryValue_error (h : binaryValue op x y = .error f) : f.Evaluated := by
  unfold binaryValue at h
  split at h
  · cases h
  · cases h
  · cases h
  · cases h
  · cases h
    exact ⟨_, _, rfl⟩

theorem mapError_fault_eq {found : Except Fault Number} :
    found.mapError Halt.fault = .error (.fault f) ↔ found = .error f := by
  simp

/-- No fault but one of evaluation comes of an expression. -/
theorem Expr.value_error {e : Expr} {room : Nat} (h : e.value room = .error (.fault f)) :
    f.Evaluated := by
  induction e generalizing room with
  | literal token =>
    cases room with
    | zero => cases h
    | succ room => exact literalValue_error (mapError_fault_eq.mp h)
  | unary op right ih =>
    cases room with
    | zero => cases h
    | succ room =>
      cases hright : right.value room with
      | error halt =>
        rw [value_unary_error hright] at h
        exact ih (hright.trans h)
      | ok x =>
        rw [value_unary_ok hright] at h
        exact unaryValue_error (mapError_fault_eq.mp h)
  | binary left op right ihl ihr =>
    cases room with
    | zero => cases h
    | succ room =>
      cases hleft : left.value room with
      | error halt =>
        rw [value_binary_left hleft] at h
        exact ihl (hleft.trans h)
      | ok x =>
        cases hright : right.value room with
        | error halt =>
          rw [value_binary_right hleft hright] at h
          exact ihr (hright.trans h)
        | ok y =>
          rw [value_binary_ok hleft hright] at h
          exact binaryValue_error (mapError_fault_eq.mp h)

theorem Stmt.value_error {s : Stmt} (h : s.value = .error f) : f.Evaluated := by
  unfold Stmt.value at h
  split at h
  · cases h
  · cases h
    exact ⟨_, _, rfl⟩
  · rename_i hvalue
    cases h
    exact Expr.value_error hvalue

end Evaluation

variable {style : Style} {s : Stmt} {p q : List Stmt} {f : Fault} {x : Number}
  {output : String} {values : List Number}

theorem Stmt.execute_ok (h : s.value = .ok x) :
    s.execute style = (style.written s.isPrint x, .ok x) := by
  simp [Stmt.execute, h]

theorem Stmt.execute_error (h : s.value = .error f) : s.execute style = ("", .error f) := by
  simp [Stmt.execute, h]

theorem execute_cons_ok (h : s.value = .ok x) :
    execute style (s :: p) =
      (style.written s.isPrint x ++ (execute style p).1, (execute style p).2.map (x :: ·)) := by
  simp [execute, Stmt.execute_ok h]

theorem execute_cons_error (h : s.value = .error f) : execute style (s :: p) = ("", .error f) := by
  simp [execute, Stmt.execute_error h]

theorem execute_cons_eq_ok (h : execute style (s :: p) = (output, .ok values)) :
    ∃ x written more, s.value = .ok x ∧ execute style p = (written, .ok more) ∧
      output = style.written s.isPrint x ++ written ∧ values = x :: more := by
  cases hs : s.value with
  | error g =>
    rw [execute_cons_error hs] at h
    cases h
  | ok x =>
    rw [execute_cons_ok hs] at h
    generalize execute style p = found at h ⊢
    obtain ⟨written, result⟩ := found
    cases result with
    | error g => cases h
    | ok more =>
      cases h
      exact ⟨x, written, more, rfl, rfl, rfl, rfl⟩

theorem execute_cons_eq_error (h : execute style (s :: p) = (output, .error f)) :
    (s.value = .error f ∧ output = "") ∨
      ∃ x written, s.value = .ok x ∧ execute style p = (written, .error f) ∧
        output = style.written s.isPrint x ++ written := by
  cases hs : s.value with
  | error g =>
    rw [execute_cons_error hs] at h
    cases h
    exact .inl ⟨rfl, rfl⟩
  | ok x =>
    rw [execute_cons_ok hs] at h
    generalize execute style p = found at h ⊢
    obtain ⟨written, result⟩ := found
    cases result with
    | ok more => cases h
    | error g =>
      cases h
      exact .inr ⟨x, written, rfl, rfl, rfl⟩

theorem execute_append_error (h : execute style p = (output, .error f)) :
    execute style (p ++ q) = (output, .error f) := by
  induction p generalizing output with
  | nil => cases h
  | cons s p ih =>
    obtain ⟨hs, rfl⟩ | ⟨x, written, hs, hp, rfl⟩ := execute_cons_eq_error h
    · exact execute_cons_error hs
    · rw [List.cons_append, execute_cons_ok hs, ih hp]
      rfl

theorem execute_append_ok (h : execute style p = (output, .ok values)) :
    execute style (p ++ q) =
      (output ++ (execute style q).1, (execute style q).2.map (values ++ ·)) := by
  induction p generalizing output values with
  | nil =>
    cases h
    rw [List.nil_append]
    generalize execute style q = found
    obtain ⟨after, result⟩ := found
    cases result <;> simp [Except.map]
  | cons s p ih =>
    obtain ⟨x, written, more, hs, hp, rfl, rfl⟩ := execute_cons_eq_ok h
    rw [List.cons_append, execute_cons_ok hs, ih hp]
    generalize execute style q = found
    obtain ⟨after, result⟩ := found
    cases result <;> simp [String.append_assoc, Except.map]

/-- Programs of which every statement has a value do not fail. -/
theorem exists_execute_ok (style : Style) (h : ∀ s ∈ p, ∃ x, s.value = .ok x) :
    ∃ output values, execute style p = (output, .ok values) := by
  induction p with
  | nil => exact ⟨"", [], rfl⟩
  | cons s p ih =>
    obtain ⟨x, hs⟩ := h s (by simp)
    obtain ⟨output, values, hp⟩ := ih fun r hr => h r (List.mem_cons_of_mem s hr)
    rw [execute_cons_ok hs, hp]
    exact ⟨_, _, rfl⟩

theorem exists_value_ok (h : execute style p = (output, .ok values)) :
    ∀ s ∈ p, ∃ x, s.value = .ok x := by
  induction p generalizing output values with
  | nil => simp
  | cons s p ih =>
    obtain ⟨x, written, more, hs, hp, -, -⟩ := execute_cons_eq_ok h
    intro r hr
    cases hr with
    | head => exact ⟨x, hs⟩
    | tail _ hr => exact ih hp r hr

/-- A run fails only with the fault of one of the statements. -/
theorem exists_value_error (h : execute style p = (output, .error f)) :
    ∃ s ∈ p, s.value = .error f := by
  induction p generalizing output with
  | nil => cases h
  | cons s p ih =>
    obtain ⟨hs, -⟩ | ⟨x, written, -, hp, -⟩ := execute_cons_eq_error h
    · exact ⟨s, by simp, hs⟩
    · obtain ⟨r, hr, hvalue⟩ := ih hp
      exact ⟨r, List.mem_cons_of_mem s hr, hvalue⟩

/-- The statement at index `k` is the first that fails, with the fault `f`; those before it wrote
`output`. -/
structure FailsAt (style : Style) (p : List Stmt) (k : Nat) (output : String) (f : Fault) : Prop where
  before : ∃ values, execute style (p.take k) = (output, .ok values)
  fails : ∃ s, p[k]? = some s ∧ s.value = .error f

theorem exists_failsAt (h : execute style p = (output, .error f)) :
    ∃ k, FailsAt style p k output f := by
  induction p generalizing output with
  | nil => cases h
  | cons s p ih =>
    obtain ⟨hs, rfl⟩ | ⟨x, written, hs, hp, rfl⟩ := execute_cons_eq_error h
    · exact ⟨0, ⟨[], rfl⟩, s, rfl, hs⟩
    · obtain ⟨k, ⟨values, hbefore⟩, r, hr, hvalue⟩ := ih hp
      refine ⟨k + 1, ⟨x :: values, ?_⟩, r, by simpa using hr, hvalue⟩
      rw [List.take_succ_cons, execute_cons_ok hs, hbefore]
      rfl

end Reckon
