import ImpAsm.Proofs.Machine.Statements

namespace ImpAsm

namespace State

variable {img : Image} {callee : Callee} {s : State}

/-- What a machine has done is never taken back. -/
theorem prefix_exec? {i : Instr} {o : Progress State} (h : s.exec? img callee i = some o) :
    s.trace <+: o.state.trace := by
  cases i with
  | call f =>
    obtain rfl := Option.some.inj h
    exact List.prefix_append _ _
  | syscall =>
    simp only [exec?, syscall?] at h
    split at h
    · split at h
      · obtain ⟨m, _, h⟩ := Option.bind_eq_some_iff.mp h
        split at h
        · obtain rfl := Option.some.inj h
          exact List.prefix_append _ _
        · simp at h
      · simp at h
    · split at h
      · obtain ⟨status, _, h⟩ := Option.bind_eq_some_iff.mp h
        obtain rfl := Option.some.inj h
        exact List.prefix_refl _
      · simp at h
  | idiv src =>
    simp only [exec?, Option.bind_eq_bind, Option.bind_eq_some_iff] at h
    obtain ⟨high, _, low, _, divisor, _, h⟩ := h
    obtain rfl := Option.some.inj h
    simp only [divide]
    split <;> exact List.prefix_refl _
  | const dst value | clear dst | push src =>
    obtain rfl := Option.some.inj h
    exact List.prefix_refl _
  | move dst src | load dst x | address dst id | neg dst | cdq | cmpZero r | test r | set cond dst
    | widen dst src | jump target =>
    simp only [exec?, Option.bind_eq_bind, Option.bind_eq_some_iff] at h
    obtain ⟨_, _, h⟩ := h
    obtain rfl := Option.some.inj h
    exact List.prefix_refl _
  | store x src | arith op dst src | cmp dst src =>
    simp only [exec?, Option.bind_eq_bind, Option.bind_eq_some_iff] at h
    obtain ⟨_, _, _, _, h⟩ := h
    obtain rfl := Option.some.inj h
    exact List.prefix_refl _
  | bytes op dst src =>
    simp only [exec?, Option.bind_eq_bind, Option.bind_eq_some_iff] at h
    obtain ⟨_, _, _, _, _, _, h⟩ := h
    obtain rfl := Option.some.inj h
    exact List.prefix_refl _
  | pop dst =>
    simp only [exec?] at h
    split at h
    · simp at h
    · obtain rfl := Option.some.inj h
      exact List.prefix_refl _
  | release size =>
    simp only [exec?] at h
    split at h
    · obtain rfl := Option.some.inj h
      exact List.prefix_refl _
    · simp at h
  | jumpEqual target =>
    simp only [exec?] at h
    split at h
    · obtain ⟨_, _, h⟩ := Option.bind_eq_some_iff.mp h
      obtain rfl := Option.some.inj h
      exact List.prefix_refl _
    · obtain rfl := Option.some.inj h
      exact List.prefix_refl _

theorem prefix_step (img : Image) (callee : Callee) (s : State) :
    s.trace <+: (step img callee s).state.trace := by
  rw [step]
  split
  · exact List.prefix_refl _
  · exact List.prefix_refl _
  · next i rest hrest =>
    cases hexec : { s with rest }.exec? img callee i with
    | none => exact List.prefix_refl _
    | some o => exact prefix_exec? (s := { s with rest }) hexec

variable {messages : Messages} {vars : List String}

/-- A machine that has loaded a program follows it. -/
theorem follows (hserves : img.Serves messages) (callee : Callee) (vars : List String) :
    Follows (step img callee) Config.step (Represents img messages vars) (Agree vars) State.trace
      Config.trace SameEffect fun c => c.todo.length where
  prefix_step := prefix_step img callee
  sim_trace := fun h => h.trace
  agree_trace := fun h => h.trace
  ref_not_stuck := by
    intro s c d h hstep
    have hanswers := answers_step hserves callee h
    rw [hstep] at hanswers
    exact hanswers
  running := by
    intro s c c' h hstep
    have hanswers := answers_step hserves callee h
    rwa [hstep] at hanswers
  ended := by
    intro s c e c' h hstep
    have hanswers := answers_step hserves callee h
    rwa [hstep] at hanswers

end State

variable {p : Program} {a : Assembly}

theorem serves_generate (h : (generate p).assembly = .ok a) : a.image.Serves a.messages where
  labels := by
    obtain ⟨_, _, hcode, _⟩ := generate_eq_ok h
    have hnodup := nodup_itemLabels a.messages p
    rwa [← hcode] at hnodup
  texts := fun _ htext => a.find?_messages htext

/-- A machine that starts a generated program represents the program. -/
theorem represents_start (h : (generate p).assembly = .ok a) (regs : Registers) (stack : List Value)
    (flags : Int × Int) :
    Represents a.image a.messages p.vars (a.image.start regs stack flags) (.start p) := by
  obtain ⟨_, hvars, hcode, hcovered⟩ := generate_eq_ok h
  have hrest : (a.image.start regs stack flags).rest = codeItems a.code := rfl
  have hitems :
      codeItems a.code = codeItems (blockCode a.messages 0 p) ++ codeItems programEnd := by
    rw [hcode, Program.code, codeItems_append]
  refine ⟨⟨?_, .nil⟩, ?_, hcovered⟩
  · intro x hx
    have hvalue := initialValue?_symbols p x
    rw [← hvars, if_pos hx] at hvalue
    exact hvalue
  · have hsuffix :
        codeItems (blockCode a.messages 0 p) ++ codeItems programEnd <:+ a.image.code := by
      rw [← hitems]
      exact List.suffix_cons _ _
    have hruns := Runs.block hsuffix .finish
    rw [hrest, hitems]
    rwa [List.append_nil] at hruns

/-- Generated code behaves like the program that it is generated from, whatever the functions do
that it calls. -/
theorem sameBehaviour_generate (h : (generate p).assembly = .ok a) (callee : Callee)
    (regs : Registers) (stack : List Value) (flags : Int × Int) :
    SameBehaviour (fun n => runFor (State.step a.image callee) n (a.image.start regs stack flags))
      (fun n => runFor Config.step n (.start p)) (Agree p.vars)
      (fun s c => List.Forall₂ SameEffect s.trace c.trace) :=
  (State.follows (serves_generate h) callee p.vars).sameBehaviour
    (represents_start h regs stack flags)

end ImpAsm
