import ImpAsm.Proofs.Machine.Basic

namespace ImpAsm

/-- An instruction that always goes on to the next one and is done by the machine itself. -/
def Instr.isStraight : Instr → Bool
  | .jump _ | .jumpEqual _ | .call _ => false
  | _ => true

/-- The same progress with other code left to run. -/
def Progress.withRest (rest : List Item) : Progress State → Progress State
  | running s => running { s with rest }
  | ended e s => ended e { s with rest }
  | stuck s => stuck { s with rest }

namespace State

variable (img : Image) (callee : Callee)

/-- Instructions one after the other, without looking at the code that is left. -/
def execAll? : List Instr → State → Option (Progress State)
  | [], s => some (.running s)
  | i :: is, s =>
    match s.exec? img callee i with
    | some (.running t) => execAll? is t
    | o => o

variable {img callee} {s t : State} {is js : List Instr} {rest : List Item} {e : Ending}

theorem execAll?_append (h : execAll? img callee is s = some (.running t)) :
    execAll? img callee (is ++ js) s = execAll? img callee js t := by
  induction is generalizing s with
  | nil =>
    obtain rfl : s = t := by simpa [execAll?] using h
    rfl
  | cons i is ih =>
    rw [List.cons_append]
    simp only [execAll?] at h ⊢
    split at h
    · exact ih h
    · simp_all

theorem execAll?_append_ended (h : execAll? img callee is s = some (.ended e t)) :
    execAll? img callee (is ++ js) s = some (.ended e t) := by
  induction is generalizing s with
  | nil => simp [execAll?] at h
  | cons i is ih =>
    rw [List.cons_append]
    simp only [execAll?] at h ⊢
    split at h
    · exact ih h
    · simp_all

/-- Straight instructions neither read nor change the code that is left. -/
theorem exec?_withRest {i : Instr} (hi : i.isStraight) (s : State) (rest : List Item) :
    { s with rest }.exec? img callee i = (s.exec? img callee i).map (Progress.withRest rest) := by
  cases i with
  | const dst value | clear dst | push src => rfl
  | jump l | jumpEqual l | call f => simp [Instr.isStraight] at hi
  | move dst src =>
    simp only [exec?, low?]
    cases (s.regs src).low? <;> rfl
  | load dst x =>
    simp only [exec?]
    cases s.memory x <;> rfl
  | store x src =>
    simp only [exec?, low?]
    cases s.memory x
    · rfl
    · cases (s.regs src).low? <;> rfl
  | address dst id =>
    simp only [exec?]
    cases img.messages.find? (·.1 == id) <;> rfl
  | neg dst =>
    simp only [exec?, low?]
    cases (s.regs dst).low? <;> rfl
  | arith op dst src | cmp dst src =>
    simp only [exec?, low?]
    cases (s.regs dst).low?
    · rfl
    · cases (s.regs src).low? <;> rfl
  | cdq =>
    simp only [exec?, low?]
    cases (s.regs .rax).low? <;> rfl
  | idiv src =>
    simp only [exec?, low?]
    cases (s.regs .rdx).low? with
    | none => rfl
    | some high =>
      cases (s.regs .rax).low? with
      | none => rfl
      | some low =>
        cases (s.regs src).low? with
        | none => rfl
        | some divisor =>
          simp only [divide, Option.bind_eq_bind, Option.bind_some]
          split <;> simp_all [Progress.withRest, put, set]
  | cmpZero r | test r =>
    simp only [exec?, low?]
    cases (s.regs r).low? <;> rfl
  | set cond dst =>
    simp only [exec?]
    cases (s.regs dst).withByte? (if cond.holds s.flags then 1 else 0) <;> rfl
  | bytes op dst src =>
    simp only [exec?]
    cases (s.regs dst).byte? with
    | none => rfl
    | some x =>
      cases (s.regs src).byte? with
      | none => rfl
      | some y =>
        simp only [Option.bind_eq_bind, Option.bind_some]
        cases (s.regs dst).withByte? (op.eval x y) <;> rfl
  | widen dst src =>
    simp only [exec?]
    cases (s.regs src).byte? <;> rfl
  | pop dst =>
    simp only [exec?]
    cases s.stack <;> rfl
  | release size =>
    simp only [exec?]
    split <;> rfl
  | syscall =>
    simp only [exec?, syscall?, low?]
    split
    · split
      · next id length _ _ _ =>
        cases img.messages.find? (·.1 == id) with
        | none => rfl
        | some m =>
          simp only [Option.bind_eq_bind, Option.bind_some]
          split <;> rfl
      · rfl
    · split
      · cases (s.regs .rdi).low? <;> rfl
      · rfl

theorem execAll?_withRest (hs : ∀ i ∈ is, i.isStraight) (s : State) (rest : List Item) :
    execAll? img callee is { s with rest } =
      (execAll? img callee is s).map (Progress.withRest rest) := by
  induction is generalizing s with
  | nil => rfl
  | cons i is ih =>
    simp only [execAll?]
    rw [exec?_withRest (hs i (by simp))]
    cases hexec : s.exec? img callee i with
    | none => rfl
    | some o =>
      cases o with
      | running u => exact ih (fun j hj => hs j (by simp [hj])) u
      | ended e u => rfl
      | stuck u => rfl

/-- An instruction is one step. -/
theorem step_of_exec? {i : Instr} {o : Progress State} (hrest : s.rest = .instr i :: rest)
    (h : { s with rest }.exec? img callee i = some o) : step img callee s = o := by
  simp [step, hrest, h]

theorem step_of_isStraight {i : Instr} {o : Progress State} (hi : i.isStraight)
    (hrest : s.rest = .instr i :: rest) (h : s.exec? img callee i = some o) :
    step img callee s = o.withRest rest := by
  refine step_of_exec? hrest ?_
  rw [exec?_withRest hi, h]
  rfl

/-- Straight code is run from its first to its last instruction. -/
theorem runFor_of_execAll? (hs : ∀ i ∈ is, i.isStraight) (hrest : s.rest = is.map .instr ++ rest)
    (h : execAll? img callee is s = some (.running t)) :
    runFor (step img callee) is.length s = .running { t with rest } := by
  induction is generalizing s t with
  | nil =>
    obtain rfl : s = t := by simpa [execAll?] using h
    obtain rfl : s.rest = rest := hrest
    rfl
  | cons i is ih =>
    have hs' : ∀ j ∈ is, j.isStraight := fun j hj => hs j (by simp [hj])
    simp only [execAll?] at h
    split at h
    · next u hu =>
      have hstep := step_of_isStraight (hs i (by simp)) hrest hu
      have hrun : execAll? img callee is { u with rest := is.map .instr ++ rest } =
          some (.running { t with rest := is.map .instr ++ rest }) := by
        rw [execAll?_withRest hs', h]
        rfl
      have htail := ih hs' rfl hrun
      rw [List.length_cons, runFor, hstep]
      exact htail
    · next hne => exact absurd h (hne t)

theorem reaches_of_execAll? (hs : ∀ i ∈ is, i.isStraight) (hrest : s.rest = is.map .instr ++ rest)
    (h : execAll? img callee is s = some (.running t)) :
    Reaches (step img callee) s { t with rest } :=
  ⟨is.length, runFor_of_execAll? hs hrest h⟩

/-- Straight code that ends the program ends it within its instructions, with the same
variables and effects. -/
theorem runFor_ended_of_execAll? (hs : ∀ i ∈ is, i.isStraight)
    (hrest : s.rest = is.map .instr ++ rest)
    (h : execAll? img callee is s = some (.ended e t)) :
    ∃ rest', runFor (step img callee) is.length s = .ended e { t with rest := rest' } := by
  induction is generalizing s t with
  | nil => simp [execAll?] at h
  | cons i is ih =>
    have hs' : ∀ j ∈ is, j.isStraight := fun j hj => hs j (by simp [hj])
    rw [List.length_cons, runFor]
    simp only [execAll?] at h
    split at h
    · next u hu =>
      have hstep := step_of_isStraight (hs i (by simp)) hrest hu
      have hrun : execAll? img callee is { u with rest := is.map .instr ++ rest } =
          some (.ended e { t with rest := is.map .instr ++ rest }) := by
        rw [execAll?_withRest hs', h]
        rfl
      obtain ⟨rest', hend⟩ := ih hs' rfl hrun
      refine ⟨rest', ?_⟩
      rw [hstep]
      exact hend
    · refine ⟨is.map .instr ++ rest, ?_⟩
      rw [step_of_isStraight (hs i (by simp)) hrest h]
      rfl

theorem endsIn_of_execAll? (hs : ∀ i ∈ is, i.isStraight) (hrest : s.rest = is.map .instr ++ rest)
    (h : execAll? img callee is s = some (.ended e t)) :
    ∃ rest', EndsIn (step img callee) s e { t with rest := rest' } := by
  obtain ⟨rest', hend⟩ := runFor_ended_of_execAll? hs hrest h
  exact ⟨rest', is.length, hend⟩

end State

end ImpAsm
