import ImpAsm.Proofs.Machine.Code
import ImpAsm.Proofs.Machine.Frame
import ImpAsm.Proofs.Stmt.Scope

namespace ImpAsm

/-- A fold goes on from where its first part ends. -/
theorem foldlM_append_of_eq_some {α β : Type} {f : β → α → Option β} {xs ys : List α} {a b : β}
    (h : xs.foldlM f a = some b) : (xs ++ ys).foldlM f a = ys.foldlM f b := by
  rw [List.foldlM_append, h]
  rfl

theorem heightAfter?_pushes (rs : List Reg) (n : Nat) :
    (rs.map Instr.push).foldlM Instr.heightAfter? n = some (n + rs.length) := by
  induction rs generalizing n with
  | nil => rfl
  | cons r rs ih =>
    rw [List.map_cons, List.foldlM_cons, List.length_cons, Nat.add_comm rs.length, ← Nat.add_assoc]
    exact ih (n + 1)

theorem heightAfter?_pops (rs : List Reg) (n : Nat) :
    (rs.map Instr.pop).foldlM Instr.heightAfter? (n + rs.length) = some n := by
  induction rs generalizing n with
  | nil => rfl
  | cons r rs ih =>
    have hpop : (Instr.pop r).heightAfter? (n + (r :: rs).length) = some (n + rs.length) := by
      rw [Instr.heightAfter?, if_neg (by simp), List.length_cons]
      rfl
    rw [List.map_cons, List.foldlM_cons, hpop]
    exact ih n

theorem heightAfter?_argumentsCode (args : List Expr) (n : Nat) :
    (argumentsCode args).foldlM Instr.heightAfter? n = some (n + args.length) := by
  induction args with
  | nil => rfl
  | cons e es ih =>
    rw [argumentsCode_cons, foldlM_append_of_eq_some ih,
      foldlM_append_of_eq_some (heightAfter?_code e _)]
    rfl

/-- At a call there are the saved registers on the stack, and the arguments for which there is no
register. -/
theorem heightAfter?_beforeCall (args : List Expr) :
    (State.beforeCall args).foldlM Instr.heightAfter? 0 = some (4 + (args.length - 6)) := by
  have hregisters : (argumentRegisters.take args.length).length = min args.length 6 :=
    List.length_take
  have hheight :
      4 + args.length = 4 + (args.length - 6) + (argumentRegisters.take args.length).length := by
    rw [hregisters]
    omega
  rw [State.beforeCall, foldlM_append_of_eq_some (heightAfter?_pushes _ 0),
    foldlM_append_of_eq_some (heightAfter?_argumentsCode args _)]
  change (List.map Instr.pop _).foldlM Instr.heightAfter? (4 + args.length) = _
  rw [hheight]
  exact heightAfter?_pops _ _

/-- A call statement takes back what it puts on the stack. -/
theorem heightAfter?_afterCall (args : List Expr) :
    (State.afterCall args).foldlM Instr.heightAfter? (4 + (args.length - 6)) = some 0 := by
  have hrelease : (if args.length - argumentRegisters.length = 0 then []
      else [Instr.release (8 * (args.length - argumentRegisters.length))]).foldlM Instr.heightAfter?
        (4 + (args.length - 6)) = some 4 := by
    have hsix : argumentRegisters.length = 6 := rfl
    split
    · next h =>
      rw [hsix] at h
      rw [h]
      rfl
    · rw [hsix, List.foldlM_cons, Instr.heightAfter?, if_pos (by omega)]
      have hleft : 4 + (args.length - 6) - 8 * (args.length - 6) / 8 = 4 := by omega
      rw [hleft]
      rfl
  rw [State.afterCall, foldlM_append_of_eq_some hrelease]
  exact heightAfter?_pops savedRegisters.reverse 0

/-- How many values stand above some level of the stack after an item of code. Code meets at labels,
so that there the stack has to be at the level. -/
def Item.heightAfter? (n : Nat) : Item → Option Nat
  | .label _ | .instr (.jump _) | .instr (.jumpEqual _) => if n = 0 then some 0 else none
  | .instr i => i.heightAfter? n

/-- How many values code leaves on the stack. -/
def height? (items : List Item) : Option Nat := items.foldlM Item.heightAfter? 0

theorem Item.heightAfter?_instr {i : Instr} (hi : i.isStraight) (n : Nat) :
    (Item.instr i).heightAfter? n = i.heightAfter? n := by
  cases i with
  | jump l | jumpEqual l | call f => simp [Instr.isStraight] at hi
  | _ => rfl

theorem foldlM_heightAfter?_instrs {is : List Instr} (hs : ∀ i ∈ is, i.isStraight) (n : Nat) :
    (is.map Item.instr).foldlM Item.heightAfter? n = is.foldlM Instr.heightAfter? n := by
  induction is generalizing n with
  | nil => rfl
  | cons i is ih =>
    rw [List.map_cons, List.foldlM_cons, List.foldlM_cons, Item.heightAfter?_instr (hs i (by simp))]
    congr 1
    funext m
    exact ih (fun j hj => hs j (by simp [hj])) m

theorem call_not_mem_instrs {is : List Instr} (hs : ∀ i ∈ is, i.isStraight) (f : String) :
    Item.instr (.call f) ∉ is.map .instr := by
  intro hmem
  obtain ⟨i, hi, heq⟩ := List.mem_map.mp hmem
  have hcall := hs i hi
  rw [Item.instr.inj heq] at hcall
  simp [Instr.isStraight] at hcall

/-- Where code has a height, each of its items has one. -/
theorem height?_split {before rest : List Item} {item : Item} {n : Nat}
    (h : height? (before ++ item :: rest) = some n) :
    ∃ k m, height? before = some k ∧ item.heightAfter? k = some m ∧
      height? (before ++ [item]) = some m := by
  rw [height?, List.foldlM_append] at h
  obtain ⟨k, hk, h⟩ := Option.bind_eq_some_iff.mp h
  rw [List.foldlM_cons] at h
  obtain ⟨m, hm, _⟩ := Option.bind_eq_some_iff.mp h
  refine ⟨k, m, hk, hm, ?_⟩
  rw [height?, foldlM_append_of_eq_some hk, List.foldlM_cons, hm]
  rfl

/-- Code that starts and ends at the same level of the stack, and in which every call is part of a
call statement in `calls` that starts at this level, too. -/
structure Balanced (calls : List (String × List Expr)) (items : List Item) : Prop where
  height : height? items = some 0
  call : ∀ {before rest : List Item} {f : String}, items = before ++ .instr (.call f) :: rest →
    ∃ args front back, (f, args) ∈ calls ∧ before = front ++ (State.beforeCall args).map .instr ∧
      rest = (State.afterCall args).map .instr ++ back ∧ height? front = some 0

namespace Balanced

variable {calls more : List (String × List Expr)} {items others : List Item}

theorem nil : Balanced calls [] := ⟨rfl, by simp⟩

theorem mono (h : Balanced calls items) (hsub : calls ⊆ more) : Balanced more items where
  height := h.height
  call := by
    intro before rest f hsplit
    obtain ⟨args, front, back, hmem, hcall⟩ := h.call hsplit
    exact ⟨args, front, back, hsub hmem, hcall⟩

theorem append (h : Balanced calls items) (h' : Balanced calls others) :
    Balanced calls (items ++ others) where
  height := by
    rw [height?, foldlM_append_of_eq_some h.height]
    exact h'.height
  call := by
    intro before rest f hsplit
    rcases List.append_eq_append_iff.mp hsplit with ⟨inner, rfl, hinner⟩ | ⟨inner, hitems, hinner⟩
    · -- the call is in the second part
      obtain ⟨args, front, back, hmem, rfl, hrest, hfront⟩ := h'.call hinner
      refine ⟨args, items ++ front, back, hmem, by rw [List.append_assoc], hrest, ?_⟩
      rw [height?, foldlM_append_of_eq_some h.height]
      exact hfront
    · cases inner with
      | nil =>
        -- the second part would have to start with the call
        have hothers : others = [] ++ .instr (.call f) :: rest := hinner.symm
        obtain ⟨args, front, _, _, hbefore, _⟩ := h'.call hothers
        have hnone := (List.append_eq_nil_iff.mp hbefore.symm).2
        simp [State.beforeCall, savedRegisters] at hnone
      | cons item inner =>
        rw [List.cons_append] at hinner
        obtain ⟨rfl, rfl⟩ := List.cons.inj hinner
        obtain ⟨args, front, back, hmem, hbefore, rfl, hfront⟩ := h.call hitems
        exact ⟨args, front, back ++ others, hmem, hbefore, List.append_assoc _ _ _, hfront⟩

theorem of_not_mem_call (h : height? items = some 0) (hcall : ∀ f, Item.instr (.call f) ∉ items) :
    Balanced calls items where
  height := h
  call := by
    intro before rest f hsplit
    refine absurd ?_ (hcall f)
    simp [hsplit]

/-- Lines after lines. -/
theorem lines {ls ms : List Line} (h : Balanced calls (codeItems ls))
    (h' : Balanced calls (codeItems ms)) :
    Balanced calls (codeItems (ls ++ ms)) := by
  rw [codeItems_append]
  exact h.append h'

/-- The code of an expression. -/
theorem exprCode (e : Expr) : Balanced calls (codeItems (e.code.map .instr)) := by
  rw [codeItems_instrs]
  have hheight := foldlM_heightAfter?_instrs (isStraight_code e) 0
  exact .of_not_mem_call (hheight.trans (heightAfter?_code e 0))
    (call_not_mem_instrs (isStraight_code e))

/-- The code of a call statement. -/
theorem callCode (f : String) (args : List Expr) :
    Balanced [(f, args)] ((ImpAsm.callCode f args).map .instr) where
  height := by
    have hbefore := foldlM_heightAfter?_instrs (State.isStraight_beforeCall args) 0
    rw [State.callCode_eq, List.map_append, List.map_cons, height?,
      foldlM_append_of_eq_some (hbefore.trans (heightAfter?_beforeCall args)), List.foldlM_cons]
    exact (foldlM_heightAfter?_instrs (State.isStraight_afterCall args) _).trans
      (heightAfter?_afterCall args)
  call := by
    intro before rest g hsplit
    rw [State.callCode_eq, List.map_append, List.map_cons] at hsplit
    obtain ⟨rfl, hcall, rfl⟩ := (List.append_cons_inj_of_notMem
      (call_not_mem_instrs (State.isStraight_beforeCall args) g)
      (call_not_mem_instrs (State.isStraight_afterCall args) g)).mp hsplit
    obtain rfl : f = g := by simpa using hcall
    exact ⟨args, [], [], by simp, rfl, (List.append_nil _).symm, rfl⟩

end Balanced

mutual

/-- The call statements of a statement with their arguments; there is no code for processor
bodies. -/
def Stmt.calls : Stmt → List (String × List Expr)
  | .call f args => [(f, args)]
  | .branch _ yes no => stmtsCalls yes ++ elseCalls no
  | .loop _ body => stmtsCalls body
  | .exit _ | .printText _ | .printValue _ | .declare _ _ | .assign _ _ | .processor _ _ _ => []

def stmtsCalls : List Stmt → List (String × List Expr)
  | [] => []
  | s :: ss => s.calls ++ stmtsCalls ss

def elseCalls : Option (List Stmt) → List (String × List Expr)
  | none => []
  | some ss => stmtsCalls ss

end

mutual

/-- The code of a statement leaves the stack at its level, and its calls are those of the
statement. -/
theorem Stmt.balanced_code (messages : Messages) : ∀ (used : Nat) (s : Stmt),
    Balanced s.calls (codeItems (s.code messages used))
  | _, .exit e => (Balanced.exprCode e).lines (.of_not_mem_call rfl (by simp [Line.items]))
  | _, .printText text => .of_not_mem_call rfl (by simp [Stmt.code, printCode, Line.items])
  | _, .printValue e => (Balanced.exprCode e).lines .nil
  | _, .declare x e => (Balanced.exprCode e).lines (.of_not_mem_call rfl (by simp [Line.items]))
  | _, .assign x e => (Balanced.exprCode e).lines (.of_not_mem_call rfl (by simp [Line.items]))
  | used, .branch e yes no => by
    have hyes := (balanced_blockCode messages (used + 2) yes).mono
      (List.subset_append_left _ (elseCalls no))
    have hno := (balanced_elseCode messages (used + 2 + labelCount yes) no).mono
      (List.subset_append_right (stmtsCalls yes) _)
    have htest : Balanced (stmtsCalls yes ++ elseCalls no)
        (codeItems [.instr (.cmpZero .rax), .instr (.jumpEqual ⟨.otherwise, used + 1⟩)]) :=
      .of_not_mem_call rfl (by simp [Line.items])
    have hjump : Balanced (stmtsCalls yes ++ elseCalls no)
        (codeItems [.instr (.jump ⟨.done, used + 2⟩), .label ⟨.otherwise, used + 1⟩]) :=
      .of_not_mem_call rfl (by simp [Line.items])
    have hdone : Balanced (stmtsCalls yes ++ elseCalls no) (codeItems [.label ⟨.done, used + 2⟩]) :=
      .of_not_mem_call rfl (by simp [Line.items])
    exact (((((Balanced.exprCode e).lines htest).lines hyes).lines hjump).lines hno).lines hdone
  | used, .loop e body => by
    have hbody := balanced_blockCode messages (used + 2) body
    have hagain : Balanced (stmtsCalls body) (codeItems [.label ⟨.loop, used + 1⟩]) :=
      .of_not_mem_call rfl (by simp [Line.items])
    have htest : Balanced (stmtsCalls body)
        (codeItems [.instr (.cmpZero .rax), .instr (.jumpEqual ⟨.done, used + 2⟩)]) :=
      .of_not_mem_call rfl (by simp [Line.items])
    have hjump : Balanced (stmtsCalls body)
        (codeItems [.instr (.jump ⟨.loop, used + 1⟩), .label ⟨.done, used + 2⟩]) :=
      .of_not_mem_call rfl (by simp [Line.items])
    exact (((hagain.lines (.exprCode e)).lines htest).lines hbody).lines hjump
  | used, .call f args => by
    rw [Stmt.code, codeItems_instrs]
    exact .callCode f args
  | _, .processor p params body => .nil

theorem balanced_blockCode (messages : Messages) : ∀ (used : Nat) (ss : List Stmt),
    Balanced (stmtsCalls ss) (codeItems (blockCode messages used ss))
  | _, [] => .nil
  | used, s :: ss => by
    rw [blockCode, codeItems_append, stmtsCalls]
    exact ((Stmt.balanced_code messages used s).mono (List.subset_append_left _ _)).append
      ((balanced_blockCode messages (used + s.labelCount) ss).mono (List.subset_append_right _ _))

theorem balanced_elseCode (messages : Messages) : ∀ (used : Nat) (no : Option (List Stmt)),
    Balanced (elseCalls no) (codeItems (elseCode messages used no))
  | _, none => .nil
  | used, some ss => balanced_blockCode messages used ss

end

/-- A program that a machine has loaded is balanced. -/
theorem balanced_image {p : Program} {a : Assembly} (h : (generate p).assembly = .ok a) :
    Balanced (stmtsCalls p) a.image.code := by
  obtain ⟨_, _, hcode, _⟩ := generate_eq_ok h
  have hstart : Balanced (stmtsCalls p) [.label "_start"] := .of_not_mem_call rfl (by simp)
  have hend : Balanced (stmtsCalls p) (codeItems programEnd) :=
    .of_not_mem_call rfl (by simp [programEnd, Line.items])
  rw [Assembly.image, hcode]
  exact hstart.append ((balanced_blockCode a.messages 0 p).lines hend)

/-- A jump goes behind its label. -/
theorem codeAt?_eq_some {name : String} {code rest : List Item}
    (h : codeAt? name code = some rest) :
    ∃ before, code = before ++ .label name :: rest := by
  fun_induction codeAt? name code with
  | case1 => simp at h
  | case2 more =>
    obtain rfl := Option.some.inj h
    exact ⟨[], rfl⟩
  | case3 l more hne ih =>
    obtain ⟨before, rfl⟩ := ih h
    exact ⟨.label l :: before, rfl⟩
  | case4 i more ih =>
    obtain ⟨before, rfl⟩ := ih h
    exact ⟨.instr i :: before, rfl⟩

namespace State

/-- The stack at `s` is `stack` with as many values on top as the code before has put there. -/
def OnTop (img : Image) (stack : List Value) (s : State) : Prop :=
  ∃ before new, img.code = before ++ s.rest ∧ height? before = some new.length ∧
    s.stack = new ++ stack

variable {img : Image} {callee : Callee} {stack new : List Value} {s t : State}

/-- A straight instruction changes the stack as its height says. -/
theorem stack_of_exec? {i : Instr} {o : Progress State} {m : Nat} (hi : i.isStraight)
    (hs : s.stack = new ++ stack) (hm : i.heightAfter? new.length = some m)
    (ho : s.exec? img callee i = some o) :
    ∃ new' : List Value, new'.length = m ∧ o.state.stack = new' ++ stack := by
  by_cases hq : i.isQuiet
  · have hspares : Spares i.writes { s with stack } new.length s :=
      ⟨fun _ _ => rfl, rfl, rfl, new, rfl, hs⟩
    exact (hspares.exec? hq (List.Subset.refl _) hm ho).stack
  · -- what is left are the instructions that write to memory or to the outside
    suffices hstack : o.state.stack = s.stack ∧
        new.length = m from ⟨new, hstack.2, hstack.1.trans hs⟩
    cases i with
    | store x src =>
      obtain ⟨_, _, ho⟩ := Option.bind_eq_some_iff.mp ho
      obtain ⟨_, _, ho⟩ := Option.bind_eq_some_iff.mp ho
      obtain rfl := Option.some.inj ho
      exact ⟨rfl, Option.some.inj hm⟩
    | syscall =>
      refine ⟨?_, Option.some.inj hm⟩
      simp only [exec?, syscall?] at ho
      split at ho
      · split at ho
        · obtain ⟨_, _, ho⟩ := Option.bind_eq_some_iff.mp ho
          obtain ⟨_, ho⟩ := Option.ite_none_right_eq_some.mp ho
          obtain rfl := Option.some.inj ho
          rfl
        · simp at ho
      · obtain ⟨_, ho⟩ := Option.ite_none_right_eq_some.mp ho
        obtain ⟨_, _, ho⟩ := Option.bind_eq_some_iff.mp ho
        obtain rfl := Option.some.inj ho
        rfl
    | jump l | jumpEqual l | call f => simp [Instr.isStraight] at hi
    | _ => simp [Instr.isQuiet] at hq

theorem running_of_isStraight {i : Instr} {rest : List Item} (hi : i.isStraight)
    (hrest : s.rest = .instr i :: rest) (hstep : State.step img callee s = .running t) :
    ∃ u, s.exec? img callee i = some (.running u) ∧ t = { u with rest } := by
  cases ho : s.exec? img callee i with
  | none =>
    simp only [State.step, hrest] at hstep
    rw [exec?_withRest hi, ho] at hstep
    exact absurd hstep (by simp)
  | some o =>
    rw [step_of_isStraight hi hrest ho] at hstep
    cases o with
    | running u => exact ⟨u, rfl, (Progress.running.inj hstep).symm⟩
    | ended e u => simp [Progress.withRest] at hstep
    | stuck u => simp [Progress.withRest] at hstep

theorem running_of_codeAt? {name : String} {s' : State}
    (h : (do
      let rest ← codeAt? name img.code
      return .running { s with rest } : Option (Progress State)).getD (.stuck s') = .running t) :
    ∃ rest, codeAt? name img.code = some rest ∧ t = { s with rest } := by
  cases hat : codeAt? name img.code with
  | none => simp [hat] at h
  | some rest =>
    rw [hat] at h
    exact ⟨rest, rfl, (Progress.running.inj h).symm⟩

/-- At a label the stack is at its level, so code may be reached by a jump as well as from above. -/
theorem OnTop.jump (hcode : height? img.code = some 0) {name : String} {rest : List Item}
    (hat : codeAt? name img.code = some rest) (hs : s.stack = stack) :
    OnTop img stack { s with rest } := by
  obtain ⟨before, hbefore⟩ := codeAt?_eq_some hat
  rw [hbefore] at hcode
  obtain ⟨k, m, _, hm, hheight⟩ := height?_split hcode
  obtain ⟨_, rfl⟩ : k = 0 ∧ 0 = m := by simpa [Item.heightAfter?] using hm
  exact ⟨before ++ [.label name], [], by simp [hbefore], hheight, hs⟩

/-- One step leaves on the stack what the code says. -/
theorem OnTop.step (hcode : height? img.code = some 0) (h : OnTop img stack s)
    (hstep : State.step img callee s = .running t) : OnTop img stack t := by
  obtain ⟨before, new, hbefore, hheight, hs⟩ := h
  cases hrest : s.rest with
  | nil => simp [State.step, hrest] at hstep
  | cons item rest =>
    have hsplit := hcode
    rw [hbefore, hrest] at hsplit
    obtain ⟨k, m, hk, hm, hafter⟩ := height?_split hsplit
    obtain rfl : k = new.length := Option.some.inj (hk.symm.trans hheight)
    -- the code goes on behind the item
    have hnext {u : State} {new' : List Value} (hu : u.rest = rest) (hlength : new'.length = m)
        (hstack : u.stack = new' ++ stack) : OnTop img stack u :=
      ⟨before ++ [item], new', by simp [hbefore, hrest, hu], hlength ▸ hafter, hstack⟩
    cases item with
    | label name =>
      obtain ⟨hlength, rfl⟩ : new.length = 0 ∧ 0 = m := by simpa [Item.heightAfter?] using hm
      obtain rfl : { s with rest } = t := by simpa [State.step, hrest] using hstep
      exact hnext rfl hlength hs
    | instr i =>
      by_cases hi : i.isStraight
      · rw [Item.heightAfter?_instr hi] at hm
        obtain ⟨u, hu, rfl⟩ := running_of_isStraight hi hrest hstep
        obtain ⟨new', hlength, hstack⟩ := stack_of_exec? hi hs hm hu
        exact hnext rfl hlength hstack
      · cases i with
        | jump l =>
          obtain ⟨hlength, rfl⟩ : new.length = 0 ∧ 0 = m := by simpa [Item.heightAfter?] using hm
          obtain rfl := List.length_eq_zero_iff.mp hlength
          simp only [State.step, hrest, exec?] at hstep
          obtain ⟨rest', hat, rfl⟩ := running_of_codeAt? hstep
          exact .jump hcode hat hs
        | jumpEqual l =>
          obtain ⟨hlength, rfl⟩ : new.length = 0 ∧ 0 = m := by simpa [Item.heightAfter?] using hm
          obtain rfl := List.length_eq_zero_iff.mp hlength
          simp only [State.step, hrest, exec?] at hstep
          split at hstep
          · obtain ⟨rest', hat, rfl⟩ := running_of_codeAt? hstep
            exact .jump hcode hat hs
          · obtain rfl := Progress.running.inj hstep
            exact hnext rfl rfl hs
        | call f =>
          obtain rfl : new.length = m := Option.some.inj hm
          rw [step_of_exec? hrest rfl] at hstep
          obtain rfl := Progress.running.inj hstep
          exact hnext rfl rfl hs
        | _ => simp [Instr.isStraight] at hi

/-- A whole run leaves on the stack what the code says. -/
theorem OnTop.runFor (hcode : height? img.code = some 0) (h : OnTop img stack s) {n : Nat}
    (hrun : ImpAsm.runFor (State.step img callee) n s = .running t) : OnTop img stack t := by
  induction n generalizing s with
  | zero =>
    obtain rfl := Progress.running.inj hrun
    exact h
  | succ n ih =>
    rw [ImpAsm.runFor] at hrun
    cases hstep : State.step img callee s with
    | running u =>
      rw [hstep] at hrun
      exact ih (h.step hcode hstep) hrun
    | ended e u => simp [hstep, Progress.andThen] at hrun
    | stuck u => simp [hstep, Progress.andThen] at hrun

end State

theorem onTop_start (a : Assembly) (hcode : height? a.image.code = some 0) (regs : Registers)
    (stack : List Value) (flags : Int × Int) :
    State.OnTop a.image stack (a.image.start regs stack flags) := by
  have hat : codeAt? "_start" a.image.code = some (codeItems a.code) := rfl
  exact State.OnTop.jump (s := a.image.start regs stack flags) hcode hat rfl

end ImpAsm
