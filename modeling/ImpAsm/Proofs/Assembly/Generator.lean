import ImpAsm.Proofs.Assembly.Reading
import ImpAsm.Proofs.Machine.Call
import ImpAsm.Proofs.Stmt.Declarations
import ImpAsm.Proofs.Stmt.Symbols

namespace ImpAsm

/-- Lines as text, each one ended by a line feed. -/
def linesText (lines : List String) : String := String.join (lines.map (· ++ "\n"))

theorem linesText_append (ls ms : List String) :
    linesText (ls ++ ms) = linesText ls ++ linesText ms := by
  simp [linesText]

/-- A code generator that is used for one program after the other: the labels it has handed out, its
tables, the names that are declared so far, and the text it has written. -/
structure Generator where
  labels : Nat
  vars : Variables
  messages : Messages
  externals : List String
  declared : List String
  out : String

def Generator.new : Generator := ⟨0, .empty, .empty, [], [], ""⟩

/-- Writes code in one pass over a program, and stops at the first undeclared name. -/
abbrev Emit := EStateM CompileError Generator

namespace Emit

open Instr

def write (lines : List String) : Emit Unit :=
  modify fun g => { g with out := g.out ++ linesText lines }

def code (lines : List Line) : Emit Unit := write (lines.map Line.text)

def newLabel (role : LabelRole) : Emit Label :=
  modifyGet fun g => (⟨role, g.labels + 1⟩, { g with labels := g.labels + 1 })

/-- A text gets its number in the table, which it enters if it is new. -/
def register (text : String) : Emit Nat :=
  modifyGet fun g =>
    ((g.messages.register text).1, { g with messages := (g.messages.register text).2 })

def declare (x : String) : Emit Unit := modify fun g => { g with declared := x :: g.declared }

def use (x : String) : Emit Unit := do
  if (← get).declared.contains x then return () else throw (.undeclared x)

def expr : Expr → Emit Unit
  | .num value => code [.instr (const .rax value.toInt)]
  | .bool value => code [.instr (const .rax (if value then 1 else 0))]
  | .ident x => do
    use x
    code [.instr (load .rax x)]
  | .unary op e => do
    expr e
    code (op.apply.map .instr)
  | .binary op l r => do
    expr r
    code [.instr (push .rax)]
    expr l
    code [.instr (pop .rbx)]
    code (op.combine.map .instr)

/-- Arguments are pushed from the last to the first. -/
def arguments : List Expr → Emit Unit
  | [] => return ()
  | e :: es => do
    arguments es
    expr e
    code [.instr (push .rax)]

/-- Takes the arguments that were left on the stack off it. -/
def dropArguments (onStack : Nat) : Emit Unit :=
  if onStack = 0 then return () else code [.instr (release (8 * onStack))]

def call (f : String) (args : List Expr) : Emit Unit := do
  code (savedRegisters.map fun r => .instr (push r))
  arguments args
  code ((argumentRegisters.take args.length).map fun r => .instr (pop r))
  code [.instr (Instr.call f)]
  dropArguments (args.length - argumentRegisters.length)
  code (savedRegisters.reverse.map fun r => .instr (pop r))

mutual

def stmt : Stmt → Emit Unit
  | .exit e => do
    expr e
    code [.noted (move .rdi .rax) "exit status", .instr (const .rax exitCall), .instr syscall]
  | .printText text => do
    let id ← register text
    code (printCode id text)
  | .printValue e => do
    expr e
    code [.remark "print of a numeric value is not implemented"]
  | .declare x e => do
    expr e
    declare x
    code [.instr (store x .rax)]
  | .assign x e => do
    use x
    expr e
    code [.instr (store x .rax)]
  | .branch e yes no => do
    let other ← newLabel .otherwise
    let done ← newLabel .done
    expr e
    code [.instr (cmpZero .rax), .instr (jumpEqual other)]
    stmts yes
    code [.instr (jump done), .label other]
    otherwise no
    code [.label done]
  | .loop e body => do
    let again ← newLabel .loop
    let done ← newLabel .done
    code [.label again]
    expr e
    code [.instr (cmpZero .rax), .instr (jumpEqual done)]
    stmts body
    code [.instr (jump again), .label done]
  | .call f args => call f args
  | .processor _ _ _ => return ()

def stmts : List Stmt → Emit Unit
  | [] => return ()
  | s :: ss => do
    stmt s
    stmts ss

def otherwise : Option (List Stmt) → Emit Unit
  | none => return ()
  | some ss => stmts ss

end

/-- Writes the data section from the tables. -/
def data : Emit Unit := do
  let g ← get
  write (["", "section .data"] ++
    g.messages.entries.map (fun (label, s) => label ++ ": db " ++ byteStringText s) ++
    g.vars.slots.map (fun (x, w) => variableLabel x ++ ": dd " ++ wordText w))

/-- Starts over, collects the symbols of a program, and writes its code and its data. -/
def program (p : Program) : Emit Unit := do
  set Generator.new
  modify fun g =>
    { g with vars := (Program.symbols p).vars, externals := (Program.symbols p).externals }
  let g ← get
  write (["default rel", "section .text", "global _start"] ++ g.externals.map ("extern " ++ ·) ++
    ["_start:"])
  stmts p
  code programEnd
  data

end Emit

/-- The text of a program, which the generator hands over, or the error at which it stopped. -/
def Generator.generate (g : Generator) (p : Program) : Except CompileError String × Generator :=
  match (Emit.program p).run g with
  | .error e t => (.error e, t)
  | .ok () t => (.ok t.out, { t with out := "" })

namespace Emit

/-- A part of a program is written: it goes through the events `es`, takes `n` labels, and writes
the lines `lines`, which depend on the numbers of texts and on the labels taken before. The numbers
are those of any table into which the one at the end can grow. -/
def Emits (w : Emit Unit) (es : List CodeEvent) (n : Nat) (lines : Messages → Nat → List Line) :
    Prop :=
  ∀ g : Generator,
    match afterCode g.declared g.messages es with
    | (.ok names, m) => ∀ m' : Messages, m.texts <+: m'.texts →
      w g = .ok () { g with
        labels := g.labels + n
        messages := m
        declared := names
        out := g.out ++ linesText ((lines m' g.labels).map Line.text) }
    | (.error x, m) => ∃ t, w g = .error (.undeclared x) t ∧ t.vars = g.vars ∧ t.messages = m

variable {w w' : Emit Unit} {es fs : List CodeEvent} {n k : Nat}
  {ls ms : Messages → Nat → List Line}

/-- Parts that stand one after the other are written one after the other. -/
theorem Emits.bind (h : Emits w es n ls) (h' : Emits w' fs k ms) :
    Emits (do w; w') (es ++ fs) (n + k) fun m used => ls m used ++ ms m (used + n) := by
  intro g
  have hw := h g
  rw [afterCode_append]
  rcases hes : afterCode g.declared g.messages es with ⟨x | names, m⟩
  · rw [hes] at hw
    obtain ⟨t, ht, hvars, hm⟩ := hw
    exact ⟨t, bind_of_error ht, hvars, hm⟩
  · rw [hes] at hw
    have hsecond := fun t : Generator => h' t
    dsimp only
    rcases hfs : afterCode names m fs with ⟨y | names', m₂⟩
    · have hfirst := hw m List.prefix_rfl
      have hrest := hsecond { g with
        labels := g.labels + n
        messages := m
        declared := names
        out := g.out ++ linesText ((ls m g.labels).map Line.text) }
      simp only [hfs] at hrest
      obtain ⟨t, ht, hvars, hm⟩ := hrest
      exact ⟨t, (bind_of_ok hfirst).trans ht, hvars, hm⟩
    · intro m' hm'
      -- The table grows in the second part, so the numbers of the first one stay what they are.
      have hgrows : m.texts <+: m₂.texts := by
        have hp := prefix_afterCode names m fs
        rwa [hfs] at hp
      have hfirst := hw m' (hgrows.trans hm')
      have hrest := hsecond { g with
        labels := g.labels + n
        messages := m
        declared := names
        out := g.out ++ linesText ((ls m' g.labels).map Line.text) }
      simp only [hfs] at hrest
      rw [bind_of_ok hfirst, hrest m' hm', List.map_append, linesText_append]
      simp only [Nat.add_assoc, String.append_assoc]

theorem emits_return : Emits (return ()) [] 0 fun _ _ => [] := by
  intro g m' _
  simp [linesText, pure, EStateM.pure]

theorem emits_code (lines : List Line) : Emits (code lines) [] 0 fun _ _ => lines :=
  fun _ _ _ => rfl

theorem emits_declare (x : String) :
    Emits (declare x) [.name (.declaration x)] 0 fun _ _ => [] := by
  intro g m' _
  simp [linesText, declare, modify, modifyGet, MonadStateOf.modifyGet, EStateM.modifyGet]

theorem emits_use (x : String) : Emits (use x) [.name (.use x)] 0 fun _ _ => [] := by
  intro g
  have hrun : use x g = if g.declared.contains x then .ok () g else .error (.undeclared x) g := by
    change (if g.declared.contains x then (return () : Emit Unit) else throw _) g = _
    split <;> rfl
  by_cases hx : x ∈ g.declared
  · rw [afterCode, if_pos hx]
    intro m' _
    simp [hrun, hx, linesText]
  · rw [afterCode, if_neg hx]
    exact ⟨g, by simp [hrun, hx], rfl, rfl⟩

/-- A printed text has the same number in all later tables. -/
theorem emits_print (text : String) :
    Emits (do let id ← register text; code (printCode id text)) [.print text] 0
      fun m _ => printCode (m.idOf text) text := by
  intro g m' hm'
  have hid : m'.idOf text = g.messages.idOf text := by
    rw [Messages.idOf_of_prefix hm' (g.messages.mem_register text), Messages.idOf_register]
  dsimp only
  rw [hid]
  rfl

theorem Emits.congr {es' : List CodeEvent} {n' : Nat} {ls' : Messages → Nat → List Line}
    (h : Emits w es n ls) (hes : es = es') (hn : n = n') (hls : ∀ m used, ls m used = ls' m used) :
    Emits w es' n' ls' := by
  obtain rfl : ls = ls' := funext fun m => funext (hls m)
  exact hes ▸ hn ▸ h

theorem emits_expr (e : Expr) : Emits (expr e) e.codeEvents 0 fun _ _ => e.code.map .instr := by
  induction e with
  | num w | bool b => exact emits_code _
  | ident x => exact (emits_use x).bind (emits_code _)
  | unary op e ih =>
    apply (ih.bind (emits_code (op.apply.map .instr))).congr
    · simp [Expr.codeEvents, Expr.nameEvents]
    · rfl
    · simp [Expr.code]
  | binary op l r ihl ihr =>
    apply (ihr.bind ((emits_code [.instr (.push .rax)]).bind (ihl.bind
      ((emits_code [.instr (.pop .rbx)]).bind (emits_code (op.combine.map .instr)))))).congr
    · simp [Expr.codeEvents, Expr.nameEvents]
    · rfl
    · simp [Expr.code]

theorem emits_arguments (args : List Expr) :
    Emits (arguments args) (args.reverse.flatMap Expr.codeEvents) 0
      fun _ _ => (argumentsCode args).map .instr := by
  induction args with
  | nil => exact emits_return
  | cons e es ih =>
    apply (ih.bind ((emits_expr e).bind (emits_code [.instr (.push .rax)]))).congr
    · simp
    · rfl
    · simp [argumentsCode_cons]

theorem emits_call (f : String) (args : List Expr) :
    Emits (call f args) (args.reverse.flatMap Expr.codeEvents) 0 fun _ _ =>
      (callCode f args).map .instr := by
  have hdrop (onStack : Nat) : Emits (dropArguments onStack) [] 0
      fun _ _ => (if onStack = 0 then [] else [.release (8 * onStack)]).map .instr := by
    rw [dropArguments]
    split
    · exact emits_return
    · exact emits_code _
  apply ((emits_code _).bind ((emits_arguments args).bind ((emits_code _).bind ((emits_code _).bind
    ((hdrop _).bind (emits_code _)))))).congr
  · simp
  · rfl
  · simp [callCode, Function.comp_def]

/-- The labels of a branch or a loop are taken before those of its blocks. -/
theorem Emits.labelled {role role' : LabelRole} {f : Label → Label → Emit Unit}
    {lines : Nat → Messages → Nat → List Line}
    (h : ∀ used, Emits (f ⟨role, used + 1⟩ ⟨role', used + 2⟩) es n (lines used)) :
    Emits (do let a ← newLabel role; let b ← newLabel role'; f a b) es (2 + n)
      fun m used => lines used m (used + 2) := by
  intro g
  have hrun : (do let a ← newLabel role; let b ← newLabel role'; f a b : Emit Unit) g =
      f ⟨role, g.labels + 1⟩ ⟨role', g.labels + 2⟩ { g with labels := g.labels + 2 } := rfl
  have hf := h g.labels { g with labels := g.labels + 2 }
  rw [hrun]
  simpa only [Nat.add_assoc] using hf

mutual

theorem emits_stmt :
    ∀ s : Stmt, Emits (stmt s) s.codeEvents s.labelCount fun m used => s.code m used
  | .exit e => by
    apply ((emits_expr e).bind (emits_code _)).congr
    · simp [Stmt.codeEvents]
    · rfl
    · simp [Stmt.code]
  | .printText text => emits_print text
  | .printValue e => by
    apply ((emits_expr e).bind (emits_code _)).congr
    · simp [Stmt.codeEvents]
    · rfl
    · simp [Stmt.code]
  | .declare x e => by
    apply ((emits_expr e).bind ((emits_declare x).bind (emits_code _))).congr
    · simp [Stmt.codeEvents]
    · rfl
    · simp [Stmt.code]
  | .assign x e => by
    apply ((emits_use x).bind ((emits_expr e).bind (emits_code _))).congr
    · simp [Stmt.codeEvents]
    · rfl
    · simp [Stmt.code]
  | .branch e yes no => by
    apply (Emits.labelled fun used => (emits_expr e).bind ((emits_code _).bind
      ((emits_stmts yes).bind ((emits_code _).bind ((emits_otherwise no).bind
        (emits_code _)))))).congr
    · simp [Stmt.codeEvents]
    · simp [Stmt.labelCount, Nat.add_assoc]
    · simp [Stmt.code]
  | .loop e body => by
    apply (Emits.labelled fun used => (emits_code _).bind ((emits_expr e).bind ((emits_code _).bind
      ((emits_stmts body).bind (emits_code _))))).congr
    · simp [Stmt.codeEvents]
    · simp [Stmt.labelCount]
    · simp [Stmt.code]
  | .call f args => emits_call f args
  | .processor _ _ _ => emits_return

/-- One pass over statements writes the code that is generated for them. -/
theorem emits_stmts : ∀ ss : List Stmt,
    Emits (stmts ss) (stmtsCodeEvents ss) (labelCount ss) fun m used => blockCode m used ss
  | [] => emits_return
  | s :: ss => by
    have h := (emits_stmt s).bind (emits_stmts ss)
    exact h

theorem emits_otherwise : ∀ no : Option (List Stmt),
    Emits (otherwise no) (elseCodeEvents no) (labelCountElse no) fun m used => elseCode m used no
  | none => emits_return
  | some ss => emits_stmts ss

end

/-- The assembly of a program whose texts are in the table `m`. -/
def assembled (m : Messages) (p : Program) : Assembly :=
  ⟨(Program.symbols p).externals, Program.code m p, m, (Program.symbols p).vars⟩

/-- The generator that has collected the symbols of a program and written the lines before its
code. -/
def begun (p : Program) : Generator :=
  { Generator.new with
    vars := (Program.symbols p).vars
    externals := (Program.symbols p).externals
    out := linesText (assembled .empty p).header }

theorem program_eq (p : Program) (g : Generator) :
    program p g = (do stmts p; code programEnd; data : Emit Unit) (begun p) := by
  rw [begun, ← String.empty_append (s := linesText _)]
  rfl

/-- The text is written in the order of its parts. -/
theorem text_assembled (m : Messages) (p : Program) :
    (assembled m p).text =
      linesText (assembled m p).header ++ linesText ((blockCode m 0 p).map Line.text) ++
      linesText (programEnd.map Line.text) ++ linesText (assembled m p).dataSection := by
  have hcode : (assembled m p).code.map Line.text =
      (blockCode m 0 p).map Line.text ++ programEnd.map Line.text := List.map_append
  change linesText ((assembled m p).header ++ (assembled m p).code.map Line.text ++
    (assembled m p).dataSection) = _
  simp only [hcode, linesText_append, String.append_assoc]

/-- The whole pass writes the text of the program, or it stops with its tables filled up to
there. -/
theorem run_program (p : Program) (g : Generator) :
    match afterCode [] .empty (stmtsCodeEvents p) with
    | (.ok _, m) =>
      ∃ t, program p g = .ok () t ∧ t.vars = (Program.symbols p).vars ∧ t.messages = m ∧
      t.out = (assembled m p).text
    | (.error x, m) =>
      ∃ t, program p g = .error (.undeclared x) t ∧ t.vars = (Program.symbols p).vars ∧
      t.messages = m := by
  have hstmts := emits_stmts p (begun p)
  rw [program_eq]
  change match afterCode [] .empty (stmtsCodeEvents p) with
    | (.ok _, _) => _
    | (.error _, _) => _ at hstmts
  rcases hes : afterCode [] .empty (stmtsCodeEvents p) with ⟨x | names, m⟩
  · rw [hes] at hstmts
    obtain ⟨t, ht, hvars, hm⟩ := hstmts
    exact ⟨t, bind_of_error ht, hvars, hm⟩
  · rw [hes] at hstmts
    rw [bind_of_ok (hstmts m List.prefix_rfl)]
    exact ⟨_, rfl, rfl, rfl, (text_assembled m p).symm⟩

end Emit

theorem vars_generate (p : Program) : (generate p).vars = (Program.symbols p).vars := by
  rw [generate]
  split <;> rfl

theorem messages_generate {p : Program} {a : Assembly} (h : (generate p).assembly = .ok a) :
    (generate p).messages = a.messages := by
  rw [generate] at h ⊢
  split at h
  · simp at h
  · obtain rfl := Except.ok.inj h
    rfl

namespace Generator

/-- A generator gives what is generated for a program, whatever it was used for before. -/
theorem generate_eq_generate (g : Generator) (p : Program) :
    (g.generate p).1 = (ImpAsm.generate p).assembly.map Assembly.text ∧
      (g.generate p).2.vars = (ImpAsm.generate p).vars ∧
      (g.generate p).2.messages = (ImpAsm.generate p).messages := by
  have hpass := Emit.run_program p g
  have hgenerate := generate_visits p
  have hvars := vars_generate p
  rcases hes : afterCode [] .empty (stmtsCodeEvents p) with ⟨x | names, m⟩
  · rw [hes] at hpass hgenerate
    obtain ⟨t, ht, htv, htm⟩ := hpass
    have hrun : g.generate p = (.error (.undeclared x), t) := by
      rw [generate, EStateM.run, ht]
    rw [hrun, hgenerate.1, hgenerate.2, hvars]
    exact ⟨rfl, htv, htm⟩
  · rw [hes] at hpass hgenerate
    obtain ⟨t, ht, htv, htm, hout⟩ := hpass
    obtain ⟨hm, a, ha, ham⟩ := hgenerate
    have hassembled : a = Emit.assembled m p := by
      obtain ⟨hexternals, havars, hcode, _⟩ := generate_eq_ok ha
      rw [← ham, Emit.assembled, ← hexternals, ← havars, ← hcode]
    have hrun : g.generate p = (.ok t.out, { t with out := "" }) := by
      rw [generate, EStateM.run, ht]
    rw [hrun, ha, hm, hvars, hout, hassembled]
    exact ⟨rfl, htv, htm⟩

end Generator

/-- Whether a line of the assembly loads an address. -/
def loadsAddress (line : String) : Bool := "  lea ".toList.isPrefixOf line.toList

def Instr.isAddress : Instr → Bool
  | address _ _ => true
  | _ => false

def Line.isAddress : Line → Bool
  | .instr i | .noted i _ => i.isAddress
  | _ => false

/-- The mnemonic tells whether an instruction loads an address. -/
theorem Instr.isPrefixOf_text (i : Instr) (after : List Char) :
    "lea ".toList.isPrefixOf (i.text.toList ++ after) = i.isAddress := by
  rcases i.text_eq with ⟨op, hw, ht⟩ | ⟨op, a, hw, ht⟩ | ⟨op, a, b, hw, ht⟩
  all_goals
    rw [ht]
    cases i <;> simp only [words, List.cons.injEq, reduceCtorEq, and_false] at hw
  case inr.inr.arith op' _ _ | inr.inr.bytes op' _ _ =>
    obtain ⟨rfl, _⟩ := hw
    cases op' <;> simp [isAddress, List.isPrefixOf, Arith.mnemonic, ByteOp.mnemonic]
  all_goals
    obtain ⟨rfl, _⟩ := hw
    simp [isAddress, List.isPrefixOf]

theorem Line.loadsAddress_text (l : Line) : loadsAddress l.text = l.isAddress := by
  cases l with
  | instr i =>
    simpa [loadsAddress, Line.text, Line.isAddress, List.isPrefixOf] using i.isPrefixOf_text []
  | noted i note =>
    simpa [loadsAddress, Line.text, Line.isAddress, List.isPrefixOf] using
      i.isPrefixOf_text (" ; " ++ note).toList
  | label l =>
    obtain ⟨role, n⟩ := l
    cases role <;>
      simp [loadsAddress, Line.text, Label.text, LabelRole.stem, List.isPrefixOf, Line.isAddress]
  | remark note | heading note | blank =>
    simp [loadsAddress, Line.text, List.isPrefixOf, Line.isAddress]

/-- The lines of code that load addresses, as text. -/
def addressLines (lines : List Line) : List String := (lines.map Line.text).filter loadsAddress

@[simp] theorem addressLines_nil : addressLines [] = [] := rfl

@[simp] theorem addressLines_cons (l : Line) (ls : List Line) :
    addressLines (l :: ls) = (if l.isAddress then [l.text] else []) ++ addressLines ls := by
  rw [addressLines, List.map_cons, List.filter_cons, l.loadsAddress_text]
  split <;> rfl

@[simp] theorem addressLines_append (ls ms : List Line) :
    addressLines (ls ++ ms) = addressLines ls ++ addressLines ms := by
  rw [addressLines, List.map_append, List.filter_append]
  rfl

theorem Instr.isAddress_of_isLocal {i : Instr} (h : i.isLocal) : i.isAddress = false := by
  cases i <;> first | rfl | cases h

theorem addressLines_eq_nil {is : List Instr} (h : ∀ i ∈ is, i.isAddress = false) :
    addressLines (is.map .instr) = [] := by
  induction is with
  | nil => rfl
  | cons i is ih =>
    rw [List.forall_mem_cons] at h
    rw [List.map_cons, addressLines_cons, ih h.2]
    simp [Line.isAddress, h.1]

@[simp] theorem addressLines_expr (e : Expr) : addressLines (e.code.map .instr) = [] := by
  apply addressLines_eq_nil
  intro i hi
  rcases mem_code i hi with hlocal | ⟨x, _, rfl⟩
  · exact Instr.isAddress_of_isLocal hlocal
  · rfl

@[simp] theorem addressLines_call (f : String) (args : List Expr) :
    addressLines ((callCode f args).map .instr) = [] := by
  apply addressLines_eq_nil
  intro i hi
  rcases mem_callCode i hi with hlocal | ⟨x, _, rfl⟩ | rfl
  · exact Instr.isAddress_of_isLocal hlocal
  · rfl
  · rfl

section Loads

variable (m : Messages)

/-- The line that loads the address of a printed text. -/
def loadLine (text : String) : String := "  lea rsi, [" ++ messageLabel (m.idOf text) ++ "]"

theorem addressLines_print (text : String) :
    addressLines (printCode (m.idOf text) text) = [loadLine m text] := by
  have htext : (Line.instr (.address .rsi (m.idOf text))).text = loadLine m text := by
    change "  " ++ ("lea" ++ " " ++ "rsi" ++ ", " ++ ("[" ++ messageLabel (m.idOf text) ++ "]")) = _
    simp [loadLine, ← String.toList_inj]
  simp [printCode, Line.isAddress, Instr.isAddress, htext]

mutual

/-- The texts that a statement prints are loaded by their labels, in the order of its code. -/
theorem Stmt.addressLines_code : ∀ (used : Nat) (s : Stmt),
    addressLines (s.code m used) = (printedTexts s.codeEvents).map (loadLine m)
  | used, .exit e => by simp [Stmt.code, Stmt.codeEvents, Line.isAddress, Instr.isAddress]
  | used, .printText text => addressLines_print m text
  | used, .printValue e => by simp [Stmt.code, Stmt.codeEvents, Line.isAddress]
  | used, .declare x e => by simp [Stmt.code, Stmt.codeEvents, Line.isAddress, Instr.isAddress]
  | used, .assign x e => by simp [Stmt.code, Stmt.codeEvents, Line.isAddress, Instr.isAddress]
  | used, .branch e yes no => by
    simp [Stmt.code, Stmt.codeEvents, Line.isAddress, Instr.isAddress,
      addressLines_blockCode _ yes, addressLines_elseCode _ no]
  | used, .loop e body => by
    simp [Stmt.code, Stmt.codeEvents, Line.isAddress, Instr.isAddress,
      addressLines_blockCode _ body]
  | used, .call f args => by simp [Stmt.code, Stmt.codeEvents]
  | used, .processor _ _ _ => rfl

theorem addressLines_blockCode : ∀ (used : Nat) (ss : List Stmt),
    addressLines (blockCode m used ss) = (printedTexts (stmtsCodeEvents ss)).map (loadLine m)
  | used, [] => rfl
  | used, s :: ss => by
    rw [blockCode, stmtsCodeEvents, addressLines_append, printedTexts_append, List.map_append,
      Stmt.addressLines_code used s, addressLines_blockCode _ ss]

theorem addressLines_elseCode : ∀ (used : Nat) (no : Option (List Stmt)),
    addressLines (elseCode m used no) = (printedTexts (elseCodeEvents no)).map (loadLine m)
  | _, none => rfl
  | used, some ss => addressLines_blockCode used ss

end

/-- Outside the code no line loads an address. -/
theorem filter_loadsAddress_lines (a : Assembly) :
    a.lines.filter loadsAddress = addressLines a.code := by
  have hheader : a.header.filter loadsAddress = [] := by
    simp [Assembly.header, List.filter_eq_nil_iff, loadsAddress, List.isPrefixOf]
  have hdata : a.dataSection.filter loadsAddress = [] := by
    rw [List.filter_eq_nil_iff]
    intro line hline
    simp only [Assembly.dataSection, Messages.entries, List.map_map, List.mem_append,
      List.mem_cons, List.not_mem_nil, or_false, List.mem_map] at hline
    obtain ((rfl | rfl) | ⟨_, _, rfl⟩) | ⟨_, _, rfl⟩ := hline
    all_goals simp [loadsAddress, messageLabel, variableLabel]
  rw [Assembly.lines, List.filter_append, List.filter_append, hheader, hdata, List.append_nil]
  rfl

end Loads

/-- The table of texts holds those that are printed up to the first undeclared name, or all of
them. -/
theorem texts_generate (p : Program) :
    ∃ before, (generate p).messages.texts = (printedTexts before).eraseDups ∧
      AllDeclared [] (before.filterMap CodeEvent.name?) ∧
      ((∃ a, (generate p).assembly = .ok a) ∧ stmtsCodeEvents p = before ∨
        ∃ x after, (generate p).assembly = .error (.undeclared x) ∧
          stmtsCodeEvents p = before ++ .name (.use x) :: after ∧
          .declaration x ∉ before.filterMap CodeEvent.name?) := by
  have hgenerate := generate_visits p
  obtain ⟨before, after, hsplit, hm, hall, hend⟩ := afterCode_split [] .empty (stmtsCodeEvents p)
  rcases hes : afterCode [] .empty (stmtsCodeEvents p) with ⟨x | names, m⟩
  · rw [hes] at hgenerate hm hend
    obtain ⟨_, hx, rest, rfl⟩ := hend
    refine ⟨before, ?_, hall, .inr ⟨x, rest, hgenerate.2, hsplit, hx⟩⟩
    rw [hgenerate.1, ← foldl_addNew, show m = _ from hm]
    exact Messages.texts_registerAll _ _
  · rw [hes] at hgenerate hm hend
    obtain ⟨hmessages, a, ha, _⟩ := hgenerate
    refine ⟨before, ?_, hall, .inl ⟨⟨a, ha⟩, ?_⟩⟩
    · rw [hmessages, ← foldl_addNew, show m = _ from hm]
      exact Messages.texts_registerAll _ _
    · rw [hsplit, show after = [] from hend, List.append_nil]

/-- Every text that is printed is in the table of the program. -/
theorem mem_texts_generate {p : Program} {a : Assembly}
    (h : (generate p).assembly = .ok a) {s : String} (hs : s ∈ printedTexts (stmtsCodeEvents p)) :
    s ∈ a.messages.texts := by
  obtain ⟨before, htexts, _, ⟨_, hall⟩ | ⟨x, _, herror, _⟩⟩ := texts_generate p
  · rw [← messages_generate h, htexts, List.mem_eraseDups, ← hall]
    exact hs
  · simp [h] at herror

/-- The tables and the data section of a generated program. A generator gives them whatever it was
used for before. Its variables are those that the program declares, in the order of their first
declarations, each with the literal of its first declaration or zero. Its texts are those that are
printed, in the order of their first prints, up to the first undeclared name if there is one. If
there is none, the lines behind the code are those of the texts and those of the variables, and the
lines that load an address are those of the prints: each one loads the label that its text has in
the table. -/
theorem generate_tables (g : Generator) (p : Program) :
    ((g.generate p).1 = (generate p).assembly.map Assembly.text ∧
      (g.generate p).2.vars = (generate p).vars ∧
      (g.generate p).2.messages = (generate p).messages) ∧
    (generate p).vars.slots = p.vars.eraseDups.map (fun x => (x, initialStore p x)) ∧
    (∃ before, (generate p).messages.texts = (printedTexts before).eraseDups ∧
      AllDeclared [] (before.filterMap CodeEvent.name?) ∧
      ((∃ a, (generate p).assembly = .ok a) ∧ stmtsCodeEvents p = before ∨
        ∃ x after, (generate p).assembly = .error (.undeclared x) ∧
          stmtsCodeEvents p = before ++ .name (.use x) :: after ∧
          .declaration x ∉ before.filterMap CodeEvent.name?)) ∧
    (generate p).messages.entries.map Prod.fst =
      (List.range (generate p).messages.texts.length).map (fun i => "msg_" ++ toString i) ∧
    (generate p).messages.entries.map Prod.snd = (generate p).messages.texts ∧
    ∀ a, (generate p).assembly = .ok a →
      a.text = String.join (a.lines.map (· ++ "\n")) ∧
      a.lines = a.header ++ a.code.map Line.text ++ [""] ++ "section .data" ::
        ((generate p).messages.entries.map
          (fun (label, s) => label ++ ": db " ++ byteStringText s) ++
          (generate p).vars.slots.map (fun (x, w) => "var_" ++ x ++ ": dd " ++ wordText w)) ∧
      List.Forall₂ (fun line s => ∃ label, (label, s) ∈ (generate p).messages.entries ∧
          line = "  lea rsi, [" ++ label ++ "]")
        (a.lines.filter loadsAddress) (printedTexts (stmtsCodeEvents p)) := by
  refine ⟨g.generate_eq_generate p, ?_, texts_generate p, Messages.map_entries_fst,
    Messages.map_entries_snd, ?_⟩
  · rw [vars_generate, slots_symbols]
  · intro a ha
    obtain ⟨_, hvars, hcode, _⟩ := generate_eq_ok ha
    rw [messages_generate ha, vars_generate, ← hvars]
    refine ⟨rfl, ?_, ?_⟩
    · simp [Assembly.lines, Assembly.dataSection, variableLabel]
    · have hend : addressLines programEnd = [] := by
        simp [programEnd, Line.isAddress, Instr.isAddress]
      rw [filter_loadsAddress_lines, hcode, Program.code, addressLines_append,
        addressLines_blockCode, hend, List.append_nil, List.forall₂_map_left_iff,
        List.forall₂_same]
      intro s hs
      exact ⟨_, Messages.mem_entries (mem_texts_generate ha hs), rfl⟩

end ImpAsm
