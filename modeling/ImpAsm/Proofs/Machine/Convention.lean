import ImpAsm.Proofs.Machine.Call
import ImpAsm.Proofs.Machine.Code

namespace ImpAsm

/-- Arguments have values exactly if each of them has one. -/
theorem evalArguments?_eq_some {store : Store} {args : List Expr} {values : List Int32} :
    evalArguments? store args = some values ↔
      List.Forall₂ (fun e v => e.eval? store = some v) args values := by
  constructor
  · intro h
    induction args generalizing values with
    | nil =>
      obtain rfl : [] = values := by simpa [evalArguments?] using h
      exact .nil
    | cons e es ih =>
      simp only [evalArguments?, Option.bind_eq_bind, Option.bind_eq_some_iff] at h
      obtain ⟨vs, hvs, v, hv, h⟩ := h
      obtain rfl : v :: vs = values := by simpa using h
      exact .cons hv (ih hvs)
  · intro h
    induction h with
    | nil => rfl
    | cons hv _ ih => simp [evalArguments?, hv, ih]

namespace State

/-- What is known of the state to which a function returns that was called at `s` with `n` arguments
on the stack: the stack is as high as before, and above the arguments it is the same. The places of
the arguments belong to the function, and so do the registers. -/
structure Returned (n : Nat) (s t : State) : Prop where
  rest : t.rest = s.rest.tail
  height : t.stack.length = s.stack.length
  above : t.stack.drop n = s.stack.drop n

/-- The function that the machine itself calls returns in this way. -/
theorem step_call (img : Image) (callee : Callee) {s : State} {f : String} {rest : List Item}
    (hrest : s.rest = .instr (.call f) :: rest) (n : Nat) :
    ∃ t, step img callee s = .running t ∧ Returned n s t :=
  ⟨_, step_of_exec? hrest rfl, by rw [hrest]; rfl, rfl, rfl⟩

/-- The values that are seen first in the places for arguments fill the registers one after the
other. -/
theorem map_regs_of_prefix {s : State} {vs : List Value} (h : vs <+: s.argumentSlots) :
    (argumentRegisters.take vs.length).map s.regs = vs.take argumentRegisters.length := by
  have hslots : s.argumentSlots.take argumentRegisters.length = argumentRegisters.map s.regs :=
    List.take_left' (by simp)
  calc (argumentRegisters.take vs.length).map s.regs
      = (s.argumentSlots.take argumentRegisters.length).take vs.length := by
        rw [hslots, List.map_take]
    _ = (s.argumentSlots.take vs.length).take argumentRegisters.length := by
        rw [List.take_take, List.take_take, Nat.min_comm]
    _ = vs.take argumentRegisters.length := by rw [← List.prefix_iff_eq_take.mp h]

/-- Behind a call the code gives back the registers that it has saved, whatever the function has
left in the places of its arguments. -/
theorem reaches_afterCall (img : Image) (callee : Callee) {s t u : State} {args : List Expr}
    {below : List Value} {i : Item} {rest : List Item}
    (hu : Returned (args.length - argumentRegisters.length) t u)
    (hbelow : below.length = args.length - argumentRegisters.length)
    (hstack : t.stack = below ++ ((savedRegisters.map s.regs).reverse ++ s.stack))
    (hrest : t.rest = i :: ((afterCall args).map .instr ++ rest)) :
    ∃ v, Reaches (step img callee) u v ∧ v.rest = rest ∧ v.stack = s.stack ∧
      ∀ r ∈ savedRegisters, v.regs r = s.regs r := by
  have hrest' : u.rest = (afterCall args).map .instr ++ rest := by rw [hu.rest, hrest]; rfl
  have habove : u.stack.drop (args.length - argumentRegisters.length) =
      (savedRegisters.map s.regs).reverse ++ s.stack := by
    rw [hu.above, hstack, ← hbelow, List.drop_left]
  have hsplit : u.stack = u.stack.take (args.length - argumentRegisters.length) ++
      ((savedRegisters.map s.regs).reverse ++ s.stack) := by
    rw [← habove, List.take_append_drop]
  have htake : (u.stack.take (args.length - argumentRegisters.length)).length =
      args.length - argumentRegisters.length := by
    rw [List.length_take, hu.height, hstack, List.length_append]
    omega
  obtain ⟨v, hv, hregs, hvstack, _, _⟩ := exec_afterCall img callee htake (by simp) hsplit
  refine ⟨_, reaches_of_execAll? (isStraight_afterCall args) hrest' hv, rfl, hvstack, ?_⟩
  rw [List.map_reverse, List.reverse_inj] at hregs
  exact List.map_inj_left.mp hregs

/-- A call statement places its arguments and restores the caller. Where its code can be generated,
the variables have their values and every argument has a value, the call is reached with the first
six values in their registers and the others on the stack, the first of them on top, right above the
saved registers. From every state to which the function may return, the statement ends with the
stack and the registers `rax`, `rbx`, `rcx` and `rdx` as they were before it; and the function that
the machine calls returns to such a state. -/
theorem call_convention (img : Image) (callee : Callee) {f : String} {args : List Expr}
    {scope scope' : Scope} {messages : Messages} {used : Nat} {store : Store}
    {values : List Int32} {s : State} {rest : List Item}
    (hgen : Walk.stmt (.call f args) scope = .ok () scope')
    (hmem : ∀ x ∈ scope.declared, s.memory x = some (store x))
    (hvalues : List.Forall₂ (fun e v => e.eval? store = some v) args values)
    (hrest : s.rest = codeItems ((Stmt.call f args).code messages used) ++ rest) :
    ∃ before after t,
      codeItems ((Stmt.call f args).code messages used) = before ++ .instr (.call f) :: after ∧
      runFor (step img callee) before.length s = .running t ∧
      t.rest = .instr (.call f) :: (after ++ rest) ∧
      ([Reg.rdi, .rsi, .rdx, .rcx, .r8, .r9].take args.length).map t.regs =
        (values.take 6).map .ofInt32 ∧
      t.stack = (values.drop 6).map .ofInt32 ++
        ([s.regs .rdx, s.regs .rcx, s.regs .rbx, s.regs .rax] ++ s.stack) ∧
      (∀ u, Returned (args.length - 6) t u →
        ∃ v, Reaches (step img callee) u v ∧ v.rest = rest ∧ v.stack = s.stack ∧
          ∀ r ∈ [Reg.rax, .rbx, .rcx, .rdx], v.regs r = s.regs r) ∧
      ∃ u, step img callee t = .running u ∧ Returned (args.length - 6) t u := by
  have hnames : ∀ e ∈ args, ∀ x ∈ e.names, s.memory x = some (store x) := by
    obtain ⟨_, _, hdeclared⟩ := Walk.arguments_eq_ok hgen
    exact fun e he x hx => hmem x (hdeclared e he x hx)
  have hbefore := exec_beforeCall img callee args hnames
  rw [evalArguments?_eq_some.mpr hvalues] at hbefore
  obtain ⟨t, ht, hslots, hstack, _, _⟩ := hbefore
  have hcode : codeItems ((Stmt.call f args).code messages used) =
      (beforeCall args).map .instr ++ .instr (.call f) :: (afterCall args).map .instr := by
    rw [Stmt.code, codeItems_instrs, callCode_eq, List.map_append, List.map_cons]
  have hrest' : s.rest = (beforeCall args).map .instr ++
      (.instr (.call f) :: ((afterCall args).map .instr ++ rest)) := by
    rw [hrest, hcode, List.append_assoc, List.cons_append]
  have hrun := runFor_of_execAll? (isStraight_beforeCall args) hrest' ht
  rw [← List.length_map (f := Item.instr)] at hrun
  have hlength : (values.map Value.ofInt32).length = args.length := by
    rw [List.length_map, hvalues.length_eq]
  have hbelow : ((values.map Value.ofInt32).drop argumentRegisters.length).length =
      args.length - argumentRegisters.length := by
    rw [List.length_drop, hlength]
  have hregs := map_regs_of_prefix hslots
  rw [hlength, ← List.map_take] at hregs
  refine ⟨_, _, _, hcode, hrun, rfl, hregs, ?_, ?_, step_call img callee rfl _⟩
  · rw [List.map_drop]
    exact hstack
  · intro u hu
    exact reaches_afterCall img callee hu hbelow hstack rfl

/-- The arguments of `f(1, 2, 3, 4, 5, 6, x - 1)`. -/
def sevenArguments : List Expr :=
  [.num 1, .num 2, .num 3, .num 4, .num 5, .num 6, .binary .sub (.ident "x") (.num 1)]

/-- A machine before the code of the call, with 8 for `x`. -/
def beforeSeven : State where
  regs := fun r => match r with
    | .rax => .word 11
    | .rbx => .word 12
    | .rcx => .word 13
    | _ => .message 0
  stack := [.word 5]
  flags := (0, 0)
  memory := fun x => if x = "x" then some 8 else none
  trace := []
  rest := codeItems ((Stmt.call "f" sevenArguments).code .empty 0)

/-- A function that leaves nothing in the registers as it was. -/
def clobber : Callee := fun _ _ => (fun _ => .word 0, (0, 0))

theorem call_seven :
    ∃ t v, Reaches (step ⟨[], [], []⟩ clobber) beforeSeven t ∧
      t.stack = [.ofInt32 7, .message 0, .word 13, .word 12, .word 11, .word 5] ∧
      t.regs .rdi = .ofInt32 1 ∧ t.regs .r9 = .ofInt32 6 ∧ Reaches (step ⟨[], [], []⟩ clobber) t v ∧
      v.stack = [.word 5] ∧ v.regs .rdx = .message 0 ∧ v.rest = [] := by
  obtain ⟨scope, hgen⟩ :
      ∃ scope, Walk.stmt (.call "f" sevenArguments) ⟨["x"], .empty, #[]⟩ = .ok () scope := ⟨_, rfl⟩
  have hvalues : List.Forall₂ (fun e v => e.eval? (fun _ => 8) = some v) sevenArguments
      [1, 2, 3, 4, 5, 6, 7] := by
    simp only [sevenArguments, List.forall₂_cons, List.forall₂_nil_left_iff]
    decide
  have hmem : ∀ x ∈ ["x"], beforeSeven.memory x = some 8 := by decide
  have hrest : beforeSeven.rest = codeItems ((Stmt.call "f" sevenArguments).code .empty 0) ++ [] :=
    (List.append_nil _).symm
  obtain ⟨before, after, t, _, hrun, _, hregs, hstack, hreturn, u, hu, hreturned⟩ :=
    call_convention ⟨[], [], []⟩ clobber hgen hmem hvalues hrest
  obtain ⟨v, hv, hvrest, hvstack, hvregs⟩ := hreturn u hreturned
  have hregs' : [t.regs .rdi, t.regs .rsi, t.regs .rdx, t.regs .rcx, t.regs .r8, t.regs .r9] =
      [.ofInt32 1, .ofInt32 2, .ofInt32 3, .ofInt32 4, .ofInt32 5, .ofInt32 6] := hregs
  simp only [List.cons.injEq] at hregs'
  obtain ⟨hrdi, _, _, _, _, hr9, _⟩ := hregs'
  exact ⟨t, v, ⟨_, hrun⟩, hstack, hrdi, hr9, (Advances.of_step hu).reaches.trans hv, hvstack,
    hvregs .rdx (by decide), hvrest⟩

end State

end ImpAsm
