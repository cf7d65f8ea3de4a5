import ImpAsm.Proofs.Machine.Call

namespace ImpAsm

namespace Instr

/-- The registers that an instruction may change. -/
def writes : Instr → List Reg
  | const dst _ | move dst _ | load dst _ | address dst _ | neg dst | arith _ dst _ | set _ dst
  | bytes _ dst _ | widen dst _ | clear dst | pop dst => [dst]
  | cdq => [.rdx]
  | idiv _ => [.rax, .rdx]
  | store _ _ | cmp _ _ | cmpZero _ | test _ | push _ | release _ | jump _ | jumpEqual _
  | syscall => []
  | call _ => [.rax, .rbx, .rcx, .rdx, .rsi, .rdi, .r8, .r9]

/-- Straight instructions that change no variable and do nothing that is seen from outside. -/
def isQuiet : Instr → Bool
  | store _ _ | jump _ | jumpEqual _ | call _ | syscall => false
  | _ => true

/-- How many values stand above some level of the stack after an instruction, if `n` do before it.
There is no answer if the instruction takes a value from below the level. -/
def heightAfter? (n : Nat) : Instr → Option Nat
  | push _ => some (n + 1)
  | pop _ => if n = 0 then none else some (n - 1)
  | release size => if size / 8 ≤ n then some (n - size / 8) else none
  | _ => some n

theorem isStraight_of_isQuiet {i : Instr} (h : i.isQuiet) : i.isStraight := by
  revert h
  cases i <;> simp [isQuiet, isStraight]

theorem isQuiet_of_isLocal {i : Instr} (h : i.isLocal) : i.isQuiet := by
  revert h
  cases i <;> simp [isQuiet, isLocal]

end Instr

/-- The registers that the code of expressions works in. -/
def workRegisters : List Reg := [.rax, .rbx, .rdx]

theorem isQuiet_code (e : Expr) : ∀ i ∈ e.code, i.isQuiet := by
  intro i hi
  rcases mem_code i hi with h | ⟨x, _, rfl⟩
  · exact Instr.isQuiet_of_isLocal h
  · rfl

theorem writes_code (e : Expr) : ∀ i ∈ e.code, i.writes ⊆ workRegisters := by
  induction e with
  | num w | bool b | ident x => simp [Expr.code, Instr.writes, workRegisters]
  | unary op e ih =>
    have hop : ∀ i ∈ op.apply, i.writes ⊆ workRegisters := by cases op <;> decide
    intro i hi
    rw [Expr.code, List.mem_append] at hi
    rcases hi with hi | hi
    · exact ih i hi
    · exact hop i hi
  | binary op l r ihl ihr =>
    have hop : ∀ i ∈ op.combine, i.writes ⊆ workRegisters := by cases op <;> decide
    intro i hi
    simp only [Expr.code, List.mem_append, List.mem_cons] at hi
    rcases hi with hi | rfl | hi | rfl | hi
    · exact ihr i hi
    · decide
    · exact ihl i hi
    · decide
    · exact hop i hi

/-- The code of an expression takes back what it puts on the stack, and nothing from below it. -/
theorem heightAfter?_code (e : Expr) (n : Nat) : e.code.foldlM Instr.heightAfter? n = some n := by
  induction e generalizing n with
  | num w | bool b | ident x => rfl
  | unary op e ih =>
    rw [Expr.code, List.foldlM_append, ih]
    cases op <;> rfl
  | binary op l r ihl ihr =>
    rw [Expr.code, List.foldlM_append, ihr]
    change (l.code ++ .pop .rbx :: op.combine).foldlM Instr.heightAfter? (n + 1) = some n
    rw [List.foldlM_append, ihl]
    cases op <;> rfl

namespace State

/-- What code that may change the registers `rs` has left at `t` as it was at `s`: the other
registers, the variables, what has been done, and the stack, but for `n` new values on top of
it. -/
structure Spares (rs : List Reg) (s : State) (n : Nat) (t : State) : Prop where
  regs : ∀ r ∉ rs, t.regs r = s.regs r
  memory : t.memory = s.memory
  trace : t.trace = s.trace
  stack : ∃ new : List Value, new.length = n ∧ t.stack = new ++ s.stack

namespace Spares

variable {rs : List Reg} {s t : State} {n : Nat}

theorem refl (rs : List Reg) (s : State) : Spares rs s 0 s :=
  ⟨fun _ _ => rfl, rfl, rfl, [], rfl, rfl⟩

theorem suffix (h : Spares rs s n t) : s.stack <:+ t.stack := by
  obtain ⟨new, _, hstack⟩ := h.stack
  exact ⟨new, hstack.symm⟩

theorem set (h : Spares rs s n t) {r : Reg} (hr : r ∈ rs) (v : Value) :
    Spares rs s n (t.set r v) where
  regs := by
    intro r' hr'
    have hne : r' ≠ r := fun heq => hr' (heq ▸ hr)
    simp [State.set, hne, h.regs r' hr']
  memory := h.memory
  trace := h.trace
  stack := h.stack

theorem withFlags (h : Spares rs s n t) (flags : Int × Int) : Spares rs s n { t with flags } :=
  ⟨h.regs, h.memory, h.trace, h.stack⟩

theorem withRest (h : Spares rs s n t) (rest : List Item) : Spares rs s n { t with rest } :=
  ⟨h.regs, h.memory, h.trace, h.stack⟩

theorem push (h : Spares rs s n t) (v : Value) :
    Spares rs s (n + 1) { t with stack := v :: t.stack } where
  regs := h.regs
  memory := h.memory
  trace := h.trace
  stack := by
    obtain ⟨new, hnew, hstack⟩ := h.stack
    exact ⟨v :: new, by simp [hnew], by simp [hstack]⟩

theorem drop (h : Spares rs s n t) {k : Nat} (hk : k ≤ n) :
    Spares rs s (n - k) { t with stack := t.stack.drop k } where
  regs := h.regs
  memory := h.memory
  trace := h.trace
  stack := by
    obtain ⟨new, hnew, hstack⟩ := h.stack
    refine ⟨new.drop k, by simp [hnew], ?_⟩
    change t.stack.drop k = _
    rw [hstack, List.drop_append_of_le_length (hnew ▸ hk)]

/-- What one quiet instruction spares. Only a push, a pop and a release move the stack, and the
others leave a value in one of their registers or set the flags. -/
theorem exec? {img : Image} {callee : Callee} (h : Spares rs s n t) {i : Instr} {o : Progress State}
    {m : Nat} (hi : i.isQuiet) (hw : i.writes ⊆ rs) (hm : i.heightAfter? n = some m)
    (ho : t.exec? img callee i = some o) : Spares rs s m o.state := by
  have hdst : ∀ r ∈ i.writes, r ∈ rs := fun r hr => hw hr
  cases i with
  | store x src | jump l | jumpEqual l | call f | syscall => simp [Instr.isQuiet] at hi
  | push src =>
    obtain rfl : n + 1 = m := by simpa [Instr.heightAfter?] using hm
    obtain rfl := Option.some.inj ho
    exact h.push _
  | pop dst =>
    simp only [Instr.heightAfter?, Option.ite_none_left_eq_some, Option.some.injEq] at hm
    obtain ⟨hn, rfl⟩ := hm
    simp only [State.exec?] at ho
    split at ho
    · simp at ho
    · next v stack hstack =>
      obtain rfl := Option.some.inj ho
      have hdrop := h.drop (k := 1) (by omega)
      rw [hstack] at hdrop
      exact hdrop.set (hdst dst (by simp [Instr.writes])) v
  | release size =>
    simp only [Instr.heightAfter?, Option.ite_none_right_eq_some, Option.some.injEq] at hm
    obtain ⟨hn, rfl⟩ := hm
    simp only [State.exec?, Option.ite_none_right_eq_some, Option.some.injEq] at ho
    obtain ⟨_, rfl⟩ := ho
    exact h.drop hn
  | const dst value | clear dst =>
    obtain rfl : n = m := Option.some.inj hm
    obtain rfl := Option.some.inj ho
    exact h.set (hdst dst (by simp [Instr.writes])) _
  | move dst src | load dst x | address dst x | neg dst | set c dst | widen dst src =>
    obtain rfl : n = m := Option.some.inj hm
    obtain ⟨x, _, ho⟩ := Option.bind_eq_some_iff.mp ho
    obtain rfl := Option.some.inj ho
    exact h.set (hdst dst (by simp [Instr.writes])) _
  | arith op dst src =>
    obtain rfl : n = m := Option.some.inj hm
    obtain ⟨x, _, ho⟩ := Option.bind_eq_some_iff.mp ho
    obtain ⟨y, _, ho⟩ := Option.bind_eq_some_iff.mp ho
    obtain rfl := Option.some.inj ho
    exact h.set (hdst dst (by simp [Instr.writes])) _
  | bytes op dst src =>
    obtain rfl : n = m := Option.some.inj hm
    obtain ⟨x, _, ho⟩ := Option.bind_eq_some_iff.mp ho
    obtain ⟨y, _, ho⟩ := Option.bind_eq_some_iff.mp ho
    obtain ⟨v, _, ho⟩ := Option.bind_eq_some_iff.mp ho
    obtain rfl := Option.some.inj ho
    exact h.set (hdst dst (by simp [Instr.writes])) _
  | cdq =>
    obtain rfl : n = m := Option.some.inj hm
    obtain ⟨x, _, ho⟩ := Option.bind_eq_some_iff.mp ho
    obtain rfl := Option.some.inj ho
    exact h.set (hdst .rdx (by simp [Instr.writes])) _
  | idiv src =>
    obtain rfl : n = m := Option.some.inj hm
    obtain ⟨high, _, ho⟩ := Option.bind_eq_some_iff.mp ho
    obtain ⟨low, _, ho⟩ := Option.bind_eq_some_iff.mp ho
    obtain ⟨divisor, _, ho⟩ := Option.bind_eq_some_iff.mp ho
    obtain rfl := Option.some.inj ho
    unfold divide
    dsimp only
    split
    · exact h
    · exact (h.set (hdst .rax (by simp [Instr.writes])) _).set
        (hdst .rdx (by simp [Instr.writes])) _
  | cmp l r =>
    obtain rfl : n = m := Option.some.inj hm
    obtain ⟨x, _, ho⟩ := Option.bind_eq_some_iff.mp ho
    obtain ⟨y, _, ho⟩ := Option.bind_eq_some_iff.mp ho
    obtain rfl := Option.some.inj ho
    exact h.withFlags _
  | cmpZero r | test r =>
    obtain rfl : n = m := Option.some.inj hm
    obtain ⟨x, _, ho⟩ := Option.bind_eq_some_iff.mp ho
    obtain rfl := Option.some.inj ho
    exact h.withFlags _

/-- What quiet code spares at each of its instructions. -/
theorem runFor {img : Image} {callee : Callee} {is : List Instr} {rest : List Item}
    (h : Spares rs s n t) {m : Nat} (hq : ∀ i ∈ is, i.isQuiet) (hw : ∀ i ∈ is, i.writes ⊆ rs)
    (hm : is.foldlM Instr.heightAfter? n = some m)
    (hrest : t.rest = is.map .instr ++ rest) {j : Nat} (hj : j ≤ is.length) :
    ∃ k, Spares rs s k (runFor (step img callee) j t).state := by
  induction is generalizing t n j with
  | nil =>
    obtain rfl : j = 0 := Nat.le_zero.mp hj
    exact ⟨n, h⟩
  | cons i is ih =>
    cases j with
    | zero => exact ⟨n, h⟩
    | succ j =>
      have hi := hq i (by simp)
      rw [List.foldlM_cons] at hm
      obtain ⟨k, hk, hm⟩ := Option.bind_eq_some_iff.mp hm
      rw [ImpAsm.runFor]
      cases hexec : t.exec? img callee i with
      | none =>
        have hstep : step img callee t = .stuck t := by
          simp only [step, hrest, List.map_cons, List.cons_append]
          rw [exec?_withRest (Instr.isStraight_of_isQuiet hi), hexec]
          rfl
        rw [hstep]
        exact ⟨n, h⟩
      | some o =>
        have hstate := h.exec? hi (hw i (by simp)) hk hexec
        rw [step_of_isStraight (Instr.isStraight_of_isQuiet hi) hrest hexec]
        cases o with
        | running u =>
          exact ih (hstate.withRest _) (fun i' hi' => hq i' (by simp [hi']))
            (fun i' hi' => hw i' (by simp [hi'])) hm rfl (Nat.le_of_succ_le_succ hj)
        | ended e u => exact ⟨k, hstate.withRest _⟩
        | stuck u => exact ⟨k, hstate.withRest _⟩

end Spares

end State

end ImpAsm
