import ImpAsm.Proofs.Machine.Frame

namespace ImpAsm

/-- Evaluating an expression comes to a division without a value: by zero, or of the least word by
-1. Right operands are evaluated first, and no operator leaves out an operand. -/
inductive Expr.Fails (store : Store) : Expr → Prop where
  | division {l r : Expr} {x y : Int32} (hr : r.eval? store = some y) (hl : l.eval? store = some x)
      (h : y = 0 ∨ x = Int32.minValue ∧ y = -1) : Fails store (.binary .div l r)
  | right {op : BinOp} {l r : Expr} (h : Fails store r) : Fails store (.binary op l r)
  | left {op : BinOp} {l r : Expr} {y : Int32} (hr : r.eval? store = some y) (h : Fails store l) :
      Fails store (.binary op l r)
  | operand {op : UnOp} {e : Expr} (h : Fails store e) : Fails store (.unary op e)

theorem BinOp.eval?_eq_none {op : BinOp} {x y : Int32} :
    op.eval? x y = none ↔ op = .div ∧ (y = 0 ∨ x = Int32.minValue ∧ y = -1) := by
  cases op with
  | div => simp [eval?, or_iff_not_imp_left]
  | _ => simp [eval?]

/-- An expression has no value exactly if a division in it has none. -/
theorem Expr.eval?_eq_none {store : Store} {e : Expr} : e.eval? store = none ↔ e.Fails store := by
  constructor
  · intro h
    induction e with
    | num w | bool b | ident x => simp [eval?] at h
    | unary op e ih =>
      cases hv : e.eval? store with
      | none => exact .operand (ih hv)
      | some x => simp [eval?, hv] at h
    | binary op l r ihl ihr =>
      cases hr : r.eval? store with
      | none => exact .right (ihr hr)
      | some y =>
        cases hl : l.eval? store with
        | none => exact .left hr (ihl hl)
        | some x =>
          have hop : op.eval? x y = none := by simpa [eval?, hr, hl] using h
          obtain ⟨rfl, hdiv⟩ := BinOp.eval?_eq_none.mp hop
          exact .division hr hl hdiv
  · intro h
    induction h with
    | division hr hl h => simp [eval?, hr, hl, BinOp.eval?_eq_none.mpr ⟨rfl, h⟩]
    | right _ ih => simp [eval?, ih]
    | left hr _ ih => simp [eval?, hr, ih]
    | operand _ ih => simp [eval?, ih]

/-- Code is generated for an expression whose names are all declared, and only reports are added. -/
theorem Walk.expr_of_declared {e : Expr} {s : Scope} (h : ∀ x ∈ e.names, x ∈ s.declared) :
    ∃ events, expr e s = .ok () { s with events } := by
  induction e generalizing s with
  | num w | bool b => exact ⟨s.events, rfl⟩
  | ident x =>
    have hx : x ∈ s.declared := h x (by simp [Expr.names])
    refine ⟨s.events, ?_⟩
    change (if s.declared.contains x then (return () : Walk Unit) else throw _) s = _
    simp [hx]
    rfl
  | unary op e ih => exact ih h
  | binary op l r ihl ihr =>
    obtain ⟨events, hr⟩ := ihr (s := { s with events := s.events.push (.operation op) })
      fun x hx => h x (by simp [Expr.names, hx])
    obtain ⟨events', hl⟩ := ihl (s := { s with events }) fun x hx => h x (by simp [Expr.names, hx])
    refine ⟨events', bind_eq_ok.mpr ⟨(), _, rfl, bind_eq_ok.mpr ⟨(), _, hr, hl⟩⟩⟩

namespace State

/-- The code of an expression computes its value and touches nothing else. Where all names are
declared code is generated, and from every state of the machine in which the names have values the
code either fails, which happens exactly if a division has no value, or is run to its end. There the
value is in `rax` with zeros above it, and the stack, the variables, what has been done and all
registers but `rax`, `rbx` and `rdx` are as they were. At no instruction has it taken a value from
the stack that it did not put there. -/
theorem run_expression (img : Image) (callee : Callee) {e : Expr} {scope : Scope}
    {store : Store} {s : State} {rest : List Item} (hscope : ∀ x ∈ e.names, x ∈ scope.declared)
    (hmem : ∀ x ∈ e.names, s.memory x = some (store x))
    (hrest : s.rest = e.code.map .instr ++ rest) :
    (∃ events, Walk.expr e scope = .ok () { scope with events }) ∧
      (match e.eval? store with
        | some v => ¬ e.Fails store ∧
          ∃ t, runFor (step img callee) e.code.length s = .running t ∧ t.rest = rest ∧
            t.regs .rax = .ofInt32 v ∧ t.stack = s.stack ∧ t.memory = s.memory ∧ t.trace = s.trace ∧
            ∀ r, r ∉ [Reg.rax, .rbx, .rdx] → t.regs r = s.regs r
        | none => e.Fails store ∧
          ∃ t, runFor (step img callee) e.code.length s = .ended .divideError t ∧
            t.memory = s.memory ∧
            t.trace = s.trace) ∧
      ∀ j ≤ e.code.length, s.stack <:+ (runFor (step img callee) j s).state.stack := by
  have hspares {j : Nat} (hj : j ≤ e.code.length) :
      ∃ n, Spares workRegisters s n (runFor (step img callee) j s).state :=
    (Spares.refl workRegisters s).runFor (isQuiet_code e) (writes_code e)
      (heightAfter?_code e 0) hrest hj
  have hcomputes : Computes img callee e.code s (e.eval? store) := computes_code e hmem
  refine ⟨Walk.expr_of_declared hscope, ?_, ?_⟩
  · cases hv : e.eval? store with
    | some v =>
      rw [hv] at hcomputes
      obtain ⟨t, ht, hrax, hkeeps⟩ := hcomputes
      have hrun := runFor_of_execAll? (isStraight_code e) hrest ht
      obtain ⟨n, hn⟩ := hspares (Nat.le_refl _)
      rw [hrun] at hn
      refine ⟨?_, _, hrun, rfl, hrax, hkeeps.stack, hkeeps.memory, hkeeps.trace, hn.regs⟩
      rw [← Expr.eval?_eq_none, hv]
      simp
    | none =>
      rw [hv] at hcomputes
      obtain ⟨t, ht, hm, htr⟩ := hcomputes
      obtain ⟨rest', hrun⟩ := runFor_ended_of_execAll? (isStraight_code e) hrest ht
      exact ⟨Expr.eval?_eq_none.mp hv, _, hrun, hm, htr⟩
  · intro j hj
    obtain ⟨n, hn⟩ := hspares hj
    exact hn.suffix

/-- The code of `x / -2 && !y`. -/
def conjunction : Expr :=
  .binary .and (.binary .div (.ident "x") (.num (-2))) (.unary .not (.ident "y"))

/-- A machine before the code of `conjunction`, with -7 for `x` and 0 for `y`. -/
def beforeConjunction : State where
  regs := fun _ => .word 3
  stack := [.word 5]
  flags := (0, 0)
  memory := fun x => some (if x = "x" then -7 else 0)
  trace := []
  rest := conjunction.code.map .instr

theorem run_conjunction :
    ∃ t, runFor (step ⟨[], [], []⟩ fun _ s => (s.regs, s.flags)) conjunction.code.length
        beforeConjunction = .running t ∧ t.rest = [] ∧ t.regs .rax = .ofInt32 1 ∧
      t.stack = [.word 5] ∧ t.regs .rcx = .word 3 := by
  have hnames : conjunction.names = ["x", "y"] := rfl
  have hscope : ∀ x ∈ conjunction.names, x ∈ (Scope.mk ["y", "x"] .empty #[]).declared := by
    simp [hnames]
  have hvalue : conjunction.eval? (fun x => if x = "x" then -7 else 0) = some 1 := by decide
  have hmem :
      ∀ x ∈ conjunction.names, beforeConjunction.memory x = some (if x = "x" then -7 else 0) :=
    fun x _ => rfl
  have hrest : beforeConjunction.rest = conjunction.code.map .instr ++ [] :=
    (List.append_nil _).symm
  have h := run_expression ⟨[], [], []⟩ (fun _ s => (s.regs, s.flags)) hscope hmem hrest
  rw [hvalue] at h
  obtain ⟨_, ⟨_, t, hrun, hrest, hrax, hstack, _, _, hregs⟩, _⟩ := h
  exact ⟨t, hrun, hrest, hrax, hstack, hregs .rcx (by decide)⟩

end State

end ImpAsm
