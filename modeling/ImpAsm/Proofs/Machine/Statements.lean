import ImpAsm.Proofs.Machine.Call
import ImpAsm.Proofs.Machine.Position
import ImpAsm.Proofs.Semantics.Simulation
import ImpAsm.Proofs.Stmt.Scope

namespace ImpAsm

/-- A machine writes the same bytes, and it calls the same function with the same first arguments.
What else is in the places of arguments does not matter. -/
def SameEffect : Effect Value → Effect Int32 → Prop
  | .wrote bytes, .wrote bytes' => bytes = bytes'
  | .called f slots, .called g values => f = g ∧ values.map .ofInt32 <+: slots
  | _, _ => False

/-- A machine has done the same as a program, and its variables have the same values. -/
structure Agree (vars : List String) (s : State) (c : Config) : Prop where
  memory : ∀ x ∈ vars, s.memory x = some (c.store x)
  trace : List.Forall₂ SameEffect s.trace c.trace

/-- A machine is about to run the statements that are left of a program. -/
structure Represents (img : Image) (messages : Messages) (vars : List String) (s : State)
    (c : Config) : Prop extends Agree vars s c where
  runs : Runs messages img.code s.rest c.todo
  covered : Covered vars messages.texts c.todo

/-- What the code of the programs below may rely on. -/
structure Image.Serves (img : Image) (messages : Messages) : Prop where
  labels : (itemLabels img.code).Nodup
  texts : ∀ text ∈ messages.texts, img.messages.find? (·.1 == messages.idOf text) =
    some (messages.idOf text, text.toUTF8.data.toList ++ [10])

namespace State

variable (img : Image) (callee : Callee) (messages : Messages) (vars : List String)

/-- A machine does what one step of a program does. It may stay where it is only if fewer than
`size` statements are left. -/
def Answers (size : Nat) (s : State) : Progress Config → Prop
  | .running c => ∃ j t, runFor (step img callee) j s = .running t ∧
      Represents img messages vars t c ∧ (j = 0 → c.todo.length < size) ∧
      t.trace.length ≤ s.trace.length + 1
  | .ended e c => ∃ j t, runFor (step img callee) j s = .ended e t ∧ Agree vars t c ∧
      t.trace = s.trace
  | .stuck _ => False

variable {img callee messages vars} {s t : State} {c : Config} {e : Expr} {rest : List Item}
  {todo : List Stmt} {used size : Nat}

theorem Answers.of_advances (h : Advances (step img callee) s t)
    (hrep : Represents img messages vars t c) (hlen : t.trace.length ≤ s.trace.length + 1) :
    Answers img callee messages vars size s (.running c) := by
  obtain ⟨j, hpos, hj⟩ := h
  exact ⟨j, t, hj, hrep, by omega, hlen⟩

theorem Answers.of_reaches {o : Progress Config} (h : Reaches (step img callee) s t)
    (htrace : t.trace = s.trace) (ho : Answers img callee messages vars size t o) :
    Answers img callee messages vars size s o := by
  obtain ⟨i, hi⟩ := h
  cases o with
  | running c =>
    obtain ⟨j, u, hu, hrep, hsize, hlen⟩ := ho
    exact ⟨i + j, u, runFor_trans hi hu, hrep, by omega, htrace ▸ hlen⟩
  | ended e c =>
    obtain ⟨j, u, hu, hagree, hu'⟩ := ho
    exact ⟨i + j, u, runFor_trans hi hu, hagree, hu'.trans htrace⟩
  | stuck c => exact ho

/-- Code of an expression is run, and then the code behind it with the value in `eax`. -/
theorem answers_evaluating {f : Int32 → Progress Config} (hagree : Agree vars s c)
    (hnames : ∀ x ∈ e.names, x ∈ vars) (hrest : s.rest = e.code.map .instr ++ rest)
    (h : ∀ v t, t.rest = rest → t.regs .rax = .ofInt32 v → Agree vars t c →
      Answers img callee messages vars size t (f v)) :
    Answers img callee messages vars size s (c.evaluating e f) := by
  have hcode : Computes img callee e.code s (e.eval? c.store) :=
    computes_code e fun x hx => hagree.memory x (hnames x hx)
  rw [Config.evaluating]
  cases hv : e.eval? c.store with
  | some v =>
    rw [hv] at hcode
    obtain ⟨t, ht, hrax, hkeeps⟩ := hcode
    have hreach := reaches_of_execAll? (isStraight_code e) hrest ht
    refine .of_reaches hreach hkeeps.trace (h v _ rfl hrax ⟨?_, ?_⟩)
    · exact hkeeps.memory ▸ hagree.memory
    · exact hkeeps.trace ▸ hagree.trace
  | none =>
    rw [hv] at hcode
    obtain ⟨t, ht, hm, htr⟩ := hcode
    obtain ⟨rest', hend⟩ := endsIn_of_execAll? (isStraight_code e) hrest ht
    obtain ⟨j, hj⟩ := hend
    exact ⟨j, _, hj, ⟨hm ▸ hagree.memory, htr ▸ hagree.trace⟩, htr⟩

theorem answers_exit (hagree : Agree vars s c) (hnames : ∀ x ∈ e.names, x ∈ vars)
    (hrest : s.rest = (Stmt.exit e).entry messages used ++ rest) :
    Answers img callee messages vars size s
      (c.evaluating e fun status => .ended (.exited status) c) := by
  have hrest' : s.rest = e.code.map .instr ++
      ([Instr.move .rdi .rax, .const .rax exitCall, .syscall].map .instr ++ rest) := by
    rw [hrest]
    simp [Stmt.entry, Stmt.code, Line.items]
  refine answers_evaluating hagree hnames hrest' ?_
  intro v t ht hrax hagree'
  have hexec : execAll? img callee [.move .rdi .rax, .const .rax exitCall, .syscall] t =
      some (.ended (.exited v) ((t.put .rdi v).put .rax (.ofInt exitCall))) := by
    have hsixty : Value.ofInt32 (Int32.ofInt exitCall) = .word 60 := by decide
    simp [execAll?, exec?, low?, syscall?, put, set, hrax, hsixty]
  have hstraight : ∀ i ∈ [Instr.move .rdi .rax, .const .rax exitCall, .syscall], i.isStraight := by
    decide
  obtain ⟨rest', hend⟩ := endsIn_of_execAll? hstraight ht hexec
  obtain ⟨j, hj⟩ := hend
  exact ⟨j, _, hj, ⟨hagree'.memory, hagree'.trace⟩, rfl⟩

/-- A write takes the number of its bytes from a 32-bit word. -/
theorem toNat_ofInt_succ (n : Nat) :
    (Int32.ofInt (n + 1)).toUInt32.toUInt64.toNat = (n + 1) % 2 ^ 32 := by
  change (BitVec.setWidth 64 (BitVec.ofInt 32 (n + 1))).toNat = _
  rw [BitVec.toNat_setWidth, BitVec.toNat_ofInt]
  omega

theorem syscall?_write {id : Nat} {length : UInt64} {bytes : List UInt8}
    (hrax : s.regs .rax = .word 1) (hrdi : s.regs .rdi = .word 1) (hrsi : s.regs .rsi = .message id)
    (hrdx : s.regs .rdx = .word length) (hfind : img.messages.find? (·.1 == id) = some (id, bytes))
    (hlength : length.toNat ≤ bytes.length) :
    s.syscall? img = some (.running (s.emit (.wrote (bytes.take length.toNat)))) := by
  rw [syscall?, if_pos hrax, hrdi, hrsi, hrdx]
  simp only [hfind, Option.bind_eq_bind, Option.bind_some]
  rw [if_pos hlength]
  rfl

/-- The code of a print statement writes the text that is in the data section. -/
theorem exec_print (callee : Callee) (s : State) {text : String}
    (hfind : img.messages.find? (·.1 == messages.idOf text) =
      some (messages.idOf text, text.toUTF8.data.toList ++ [10])) :
    ∃ t, execAll? img callee [.const .rax writeCall, .const .rdi standardOutput,
        .address .rsi (messages.idOf text), .const .rdx (text.utf8ByteSize + 1), .syscall] s =
          some (.running t) ∧
      t.memory = s.memory ∧ t.trace = s.trace ++ [.wrote (printedBytes text)] := by
  let u : State := (((s.put .rax (.ofInt writeCall)).put .rdi (.ofInt standardOutput)).set .rsi
    (.message (messages.idOf text))).put .rdx (.ofInt (text.utf8ByteSize + 1))
  have hsetup : execAll? img callee [.const .rax writeCall, .const .rdi standardOutput,
      .address .rsi (messages.idOf text), .const .rdx (text.utf8ByteSize + 1)] s =
        some (.running u) := by
    simp [execAll?, exec?, hfind, u]
  have hone : Value.ofInt32 (Int32.ofInt writeCall) = .word 1 := by decide
  have hsize := toNat_ofInt_succ text.utf8ByteSize
  have hlength : (text.toUTF8.data.toList ++ [10]).length = text.utf8ByteSize + 1 := by
    rw [List.length_append]
    rfl
  have hwrite : u.syscall? img = some (.running (u.emit (.wrote (printedBytes text)))) := by
    rw [printedBytes, ← hsize]
    refine syscall?_write hone hone rfl rfl hfind ?_
    rw [hsize, hlength]
    exact Nat.mod_le _ _
  refine ⟨u.emit (.wrote (printedBytes text)), ?_, rfl, rfl⟩
  have happend : execAll? img callee ([.const .rax writeCall, .const .rdi standardOutput,
      .address .rsi (messages.idOf text), .const .rdx (text.utf8ByteSize + 1)] ++
      [.syscall]) s = _ := execAll?_append hsetup
  refine happend.trans ?_
  simp [execAll?, exec?, hwrite]

theorem answers_printText (hserves : img.Serves messages) {text : String} (hagree : Agree vars s c)
    (htext : text ∈ messages.texts) (hcovered : Covered vars messages.texts todo)
    (hruns : Runs messages img.code rest todo)
    (hrest : s.rest = (Stmt.printText text).entry messages used ++ rest) :
    Answers img callee messages vars size s
      (.running ({ c with todo }.emit (.wrote (printedBytes text)))) := by
  obtain ⟨t, hexec, hm, htr⟩ := exec_print callee s (hserves.texts text htext)
  have hrest' : s.rest = [Instr.const .rax writeCall, .const .rdi standardOutput,
      .address .rsi (messages.idOf text), .const .rdx (text.utf8ByteSize + 1),
      .syscall].map .instr ++ rest := hrest
  have hrun := runFor_of_execAll? (by simp [Instr.isStraight]) hrest' hexec
  refine ⟨_, _, hrun, ⟨⟨hm ▸ hagree.memory, ?_⟩, hruns, hcovered⟩, by simp, by simp [htr]⟩
  rw [htr]
  exact List.rel_append hagree.trace (.cons rfl .nil)

theorem answers_store {x : String} (hagree : Agree vars s c) (hx : x ∈ vars)
    (hnames : ∀ y ∈ e.names, y ∈ vars) (hcovered : Covered vars messages.texts todo)
    (hruns : Runs messages img.code rest todo)
    (hrest : s.rest = (e.code ++ [Instr.store x .rax]).map .instr ++ rest) :
    Answers img callee messages vars size s
      (c.evaluating e fun value => .running ({ c with todo }.assign x value)) := by
  rw [List.map_append, List.append_assoc] at hrest
  refine answers_evaluating hagree hnames hrest ?_
  intro v t ht hrax hagree'
  have hstep : step img callee t = .running { t with
      memory := fun y => if y = x then some v else t.memory y
      rest := rest } := by
    refine step_of_exec? ht ?_
    simp [exec?, hagree'.memory x hx, low?, hrax]
  refine .of_advances (.of_step hstep) ⟨⟨?_, hagree'.trace⟩, hruns, hcovered⟩ (Nat.le_succ _)
  intro y hy
  simp only [Config.assign]
  split
  · rfl
  · exact hagree'.memory y hy

theorem answers_printValue (hagree : Agree vars s c) (hnames : ∀ x ∈ e.names, x ∈ vars)
    (hcovered : Covered vars messages.texts todo) (hruns : Runs messages img.code rest todo)
    (hrest : s.rest = (Stmt.printValue e).entry messages used ++ rest)
    (hsize : todo.length < size) :
    Answers img callee messages vars size s (c.evaluating e fun _ => .running { c with todo }) := by
  have hrest' : s.rest = e.code.map .instr ++ rest := by
    rw [hrest]
    simp [Stmt.entry, Stmt.code, Line.items]
  refine answers_evaluating hagree hnames hrest' ?_
  intro v t ht _ hagree'
  have hrep : Represents img messages vars t { c with todo } :=
    ⟨⟨hagree'.memory, hagree'.trace⟩, ht ▸ hruns, hcovered⟩
  exact ⟨0, t, rfl, hrep, fun _ => hsize, Nat.le_succ _⟩

theorem answers_call {f : String} {args : List Expr} (hagree : Agree vars s c)
    (hnames : ∀ e ∈ args, ∀ x ∈ e.names, x ∈ vars) (hcovered : Covered vars messages.texts todo)
    (hruns : Runs messages img.code rest todo)
    (hrest : s.rest = (Stmt.call f args).entry messages used ++ rest) :
    Answers img callee messages vars size s
      (match evalArguments? c.store args with
        | some values => .running ({ c with todo }.emit (.called f values))
        | none => .ended .divideError c) := by
  have hrest' : s.rest = (callCode f args).map .instr ++ rest := by
    rw [hrest]
    simp [Stmt.entry, Stmt.code]
  have hcall := run_call img callee hrest' fun e he x hx => hagree.memory x (hnames e he x hx)
  cases hvs : evalArguments? c.store args with
  | some values =>
    rw [hvs] at hcall
    obtain ⟨t, slots, hadv, htrest, _, hm, htr, hslots⟩ := hcall
    refine .of_advances hadv ⟨⟨hm ▸ hagree.memory, ?_⟩, htrest ▸ hruns, hcovered⟩ (by simp [htr])
    rw [htr]
    exact List.rel_append hagree.trace (.cons ⟨rfl, hslots⟩ .nil)
  | none =>
    rw [hvs] at hcall
    obtain ⟨t, ⟨j, hj⟩, hm, htr⟩ := hcall
    exact ⟨j, t, hj, ⟨hm ▸ hagree.memory, htr ▸ hagree.trace⟩, htr⟩

/-- A value is compared with zero, and zero jumps. -/
theorem advances_cmpZero (hlabels : (itemLabels img.code).Nodup) {v : Int32} {target : Label}
    {rest' : List Item} (hrax : s.regs .rax = .ofInt32 v)
    (hrest : s.rest = .instr (.cmpZero .rax) :: .instr (.jumpEqual target) :: rest)
    (hcode : .label target.text :: rest' <:+ img.code) :
    ∃ t, Advances (step img callee) s t ∧ t.rest = (if v ≠ 0 then rest else rest') ∧
      t.memory = s.memory ∧ t.trace = s.trace := by
  have hcmp : step img callee s = .running { s with
      flags := (v.toInt, 0)
      rest := .instr (.jumpEqual target) :: rest } := by
    refine step_of_exec? hrest ?_
    simp [exec?, low?, hrax]
  have hat := codeAt?_of_suffix hlabels hcode
  have hjump : step img callee { s with
      flags := (v.toInt, 0)
      rest := .instr (.jumpEqual target) :: rest } = .running { s with
      flags := (v.toInt, 0)
      rest := if v ≠ 0 then rest else rest' } := by
    refine step_of_exec? rfl ?_
    have hzero : v.toInt = 0 ↔ v = 0 := Int32.toInt_inj (y := 0)
    by_cases hv : v = 0 <;> simp [exec?, Cond.holds, hzero, hv, hat]
  exact ⟨_, (Advances.of_step hcmp).trans (Advances.of_step hjump).reaches, rfl, rfl, rfl⟩

theorem elseCode_eq (messages : Messages) (used : Nat) (no : Option (List Stmt)) :
    elseCode messages used no = blockCode messages used (no.getD []) := by
  cases no <;> rfl

theorem answers_branch (hserves : img.Serves messages) {yes : List Stmt} {no : Option (List Stmt)}
    (hagree : Agree vars s c) (hstmt : (Stmt.branch e yes no).Covered vars messages.texts)
    (hcovered : Covered vars messages.texts todo) (hruns : Runs messages img.code rest todo)
    (hcode : codeItems ((Stmt.branch e yes no).code messages used) ++ rest <:+ img.code)
    (hrest : s.rest = (Stmt.branch e yes no).entry messages used ++ rest) :
    Answers img callee messages vars size s (c.evaluating e fun value =>
      .running { c with todo := (if value ≠ 0 then yes else no.getD []) ++ todo }) := by
  obtain ⟨hnames, hyes, hno⟩ := hstmt
  let otherwise : Label := ⟨.otherwise, used + 1⟩
  let done : Label := ⟨.done, used + 2⟩
  let noItems := codeItems (blockCode messages (used + 2 + labelCount yes) (no.getD [])) ++
    .label done.text :: rest
  let yesItems := codeItems (blockCode messages (used + 2) yes) ++
    (.instr (.jump done) :: .label otherwise.text :: noItems)
  have hsplit : codeItems ((Stmt.branch e yes no).code messages used) ++ rest =
      e.code.map .instr ++
        (.instr (.cmpZero .rax) :: .instr (.jumpEqual otherwise) :: yesItems) := by
    simp [Stmt.code, Line.items, elseCode_eq, yesItems, noItems, otherwise, done]
  rw [hsplit] at hcode
  have hyesCode : yesItems <:+ img.code :=
    ((List.suffix_cons _ _).trans ((List.suffix_cons _ _).trans (List.suffix_append _ _))).trans
      hcode
  have hjumpCode : .label otherwise.text :: noItems <:+ img.code :=
    ((List.suffix_cons _ _).trans (List.suffix_append _ _)).trans hyesCode
  have hnoCode : noItems <:+ img.code := (List.suffix_cons _ _).trans hjumpCode
  have hdoneCode : .label done.text :: rest <:+ img.code := (List.suffix_append _ _).trans hnoCode
  have hnoRuns : Runs messages img.code noItems (no.getD [] ++ todo) :=
    .block hnoCode (.label hruns)
  have hyesRuns : Runs messages img.code yesItems (yes ++ todo) :=
    .block hyesCode (.jump hdoneCode hruns)
  refine answers_evaluating hagree hnames (hrest.trans hsplit) ?_
  intro v t ht hrax hagree'
  obtain ⟨u, hadv, hurest, hm, htr⟩ := advances_cmpZero hserves.labels hrax ht hjumpCode
  refine .of_advances hadv ⟨⟨hm ▸ hagree'.memory, htr ▸ hagree'.trace⟩, ?_, ?_⟩ (by simp [htr])
  · rw [hurest]
    dsimp only
    split
    · exact hyesRuns
    · exact hnoRuns
  · dsimp only
    split
    · exact hyes.append hcovered
    · exact hno.getD.append hcovered

theorem answers_loop (hserves : img.Serves messages) {body : List Stmt} (hagree : Agree vars s c)
    (hstmt : (Stmt.loop e body).Covered vars messages.texts)
    (hcovered : Covered vars messages.texts todo) (hruns : Runs messages img.code rest todo)
    (hcode : codeItems ((Stmt.loop e body).code messages used) ++ rest <:+ img.code)
    (hrest : s.rest = (Stmt.loop e body).entry messages used ++ rest) :
    Answers img callee messages vars size s (c.evaluating e fun value =>
      .running { c with todo := if value ≠ 0 then body ++ .loop e body :: todo else todo }) := by
  have hnames := hstmt.1
  let again : Label := ⟨.loop, used + 1⟩
  let done : Label := ⟨.done, used + 2⟩
  let bodyItems := codeItems (blockCode messages (used + 2) body) ++
    (.instr (.jump again) :: .label done.text :: rest)
  have hsplit : (Stmt.loop e body).entry messages used ++ rest =
      e.code.map .instr ++ (.instr (.cmpZero .rax) :: .instr (.jumpEqual done) :: bodyItems) := by
    simp [Stmt.entry, Stmt.code, Line.items, bodyItems, again, done]
  have hentryCode : (Stmt.loop e body).entry messages used ++ rest <:+ img.code :=
    (List.suffix_cons _ _).trans hcode
  rw [hsplit] at hentryCode
  have hbodyCode : bodyItems <:+ img.code :=
    ((List.suffix_cons _ _).trans ((List.suffix_cons _ _).trans (List.suffix_append _ _))).trans
      hentryCode
  have hdoneCode : .label done.text :: rest <:+ img.code :=
    ((List.suffix_cons _ _).trans (List.suffix_append _ _)).trans hbodyCode
  have hbodyRuns : Runs messages img.code bodyItems (body ++ .loop e body :: todo) :=
    .block hbodyCode (.again hcode hruns)
  refine answers_evaluating hagree hnames (hrest.trans hsplit) ?_
  intro v t ht hrax hagree'
  obtain ⟨u, hadv, hurest, hm, htr⟩ := advances_cmpZero hserves.labels hrax ht hdoneCode
  refine .of_advances hadv ⟨⟨hm ▸ hagree'.memory, htr ▸ hagree'.trace⟩, ?_, ?_⟩ (by simp [htr])
  · rw [hurest]
    dsimp only
    split
    · exact hbodyRuns
    · exact hruns
  · dsimp only
    split
    · exact hstmt.2.append ⟨hstmt, hcovered⟩
    · exact hcovered

/-- The end of the code ends the program with the status zero. -/
theorem answers_finish (hagree : Agree vars s c) (hrest : s.rest = codeItems programEnd) :
    Answers img callee messages vars size s (.ended (.exited 0) c) := by
  have hrest' : s.rest = [Instr.const .rax exitCall, .clear .rdi, .syscall].map .instr ++ [] :=
    hrest
  have hexec : execAll? img callee [.const .rax exitCall, .clear .rdi, .syscall] s =
      some (.ended (.exited 0) ((s.put .rax (.ofInt exitCall)).put .rdi 0)) := by
    have hsixty : Value.ofInt32 (Int32.ofInt exitCall) = .word 60 := by decide
    simp [execAll?, exec?, low?, syscall?, put, set, hsixty]
  obtain ⟨rest', j, hj⟩ := endsIn_of_execAll? (by simp [Instr.isStraight]) hrest' hexec
  exact ⟨j, _, hj, ⟨hagree.memory, hagree.trace⟩, rfl⟩

/-- A machine that represents a program does what the next step of the program does. -/
theorem answers_step (hserves : img.Serves messages) (callee : Callee)
    (h : Represents img messages vars s c) :
    Answers img callee messages vars c.todo.length s c.step := by
  obtain ⟨rest, hready, hreach⟩ := reaches_ready callee hserves.labels h.runs rfl
  refine .of_reaches hreach rfl ?_
  have hagree : Agree vars { s with rest } c := ⟨h.memory, h.trace⟩
  have hcovered := h.covered
  obtain ⟨todo, store, trace⟩ := c
  cases hready with
  | finish => exact answers_finish hagree rfl
  | @stmt used st todo rest hcode hruns =>
    obtain ⟨hst, htodo⟩ := hcovered
    cases st with
    | exit e => exact answers_exit hagree hst rfl
    | printText text => exact answers_printText hserves hagree hst htodo hruns rfl
    | printValue e => exact answers_printValue hagree hst htodo hruns rfl (Nat.lt_succ_self _)
    | declare x e | assign x e =>
      exact answers_store hagree hst.1 hst.2 htodo hruns
        (by simp [Stmt.entry, Stmt.code, Line.items])
    | branch e yes no => exact answers_branch hserves hagree hst htodo hruns hcode rfl
    | loop e body => exact answers_loop hserves hagree hst htodo hruns hcode rfl
    | call f args => exact answers_call hagree hst htodo hruns rfl
    | processor p params body =>
      exact ⟨0, _, rfl, ⟨⟨hagree.memory, hagree.trace⟩, hruns, htodo⟩, by simp, Nat.le_succ _⟩

end State

end ImpAsm
