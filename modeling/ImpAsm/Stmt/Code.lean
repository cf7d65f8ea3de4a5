import ImpAsm.Expr.Code
import ImpAsm.Stmt.Basic

namespace ImpAsm

/-- The registers that carry the first arguments of a call. -/
def argumentRegisters : List Reg := [.rdi, .rsi, .rdx, .rcx, .r8, .r9]

/-- The registers that a call statement leaves unchanged. -/
def savedRegisters : List Reg := [.rax, .rbx, .rcx, .rdx]

/-- The system calls that generated code makes. -/
def writeCall : Int := 1

def exitCall : Int := 60

/-- The file descriptor of the standard output. -/
def standardOutput : Int := 1

open Instr

/-- Writes a text of the given number and its line feed. -/
def printCode (id : Nat) (text : String) : List Line :=
  [.blank, .heading ("print " ++ messageLabel id), .instr (const .rax writeCall),
    .instr (const .rdi standardOutput), .instr (address .rsi id),
    .instr (const .rdx (text.utf8ByteSize + 1)), .instr syscall]

/-- Pushes the arguments, the last one first. -/
def argumentsCode (args : List Expr) : List Instr :=
  args.reverse.flatMap fun e => e.code ++ [push .rax]

/-- Calls a function with its first arguments in registers and the others on the stack. -/
def callCode (f : String) (args : List Expr) : List Instr :=
  let onStack := args.length - argumentRegisters.length
  savedRegisters.map push ++ argumentsCode args ++
    (argumentRegisters.take args.length).map pop ++ [call f] ++
    (if onStack = 0 then [] else [release (8 * onStack)]) ++ savedRegisters.reverse.map pop

mutual

/-- How many code labels a statement takes. -/
def Stmt.labelCount : Stmt → Nat
  | .branch _ yes no => 2 + labelCount yes + labelCountElse no
  | .loop _ body => 2 + labelCount body
  | _ => 0

def labelCount : List Stmt → Nat
  | [] => 0
  | stmt :: stmts => stmt.labelCount + labelCount stmts

def labelCountElse : Option (List Stmt) → Nat
  | none => 0
  | some stmts => labelCount stmts

end

mutual

/-- The code of a statement whose printed texts are numbered by `messages` and whose labels
are numbered from `used + 1` on. -/
def Stmt.code (messages : Messages) (used : Nat) : Stmt → List Line
  | .exit e =>
    e.code.map .instr ++
      [.noted (move .rdi .rax) "exit status", .instr (const .rax exitCall), .instr syscall]
  | .printText text => printCode (messages.idOf text) text
  | .printValue e => e.code.map .instr ++ [.remark "print of a numeric value is not implemented"]
  | .declare x e => e.code.map .instr ++ [.instr (store x .rax)]
  | .assign x e => e.code.map .instr ++ [.instr (store x .rax)]
  | .branch e yes no =>
    let otherwise : Label := ⟨.otherwise, used + 1⟩
    let done : Label := ⟨.done, used + 2⟩
    e.code.map .instr ++ [.instr (cmpZero .rax), .instr (jumpEqual otherwise)] ++
      blockCode messages (used + 2) yes ++ [.instr (jump done), .label otherwise] ++
      elseCode messages (used + 2 + labelCount yes) no ++ [.label done]
  | .loop e body =>
    let again : Label := ⟨.loop, used + 1⟩
    let done : Label := ⟨.done, used + 2⟩
    [.label again] ++ e.code.map .instr ++ [.instr (cmpZero .rax), .instr (jumpEqual done)] ++
      blockCode messages (used + 2) body ++ [.instr (jump again), .label done]
  | .call f args => (callCode f args).map .instr
  | .processor _ _ _ => []

def blockCode (messages : Messages) (used : Nat) : List Stmt → List Line
  | [] => []
  | stmt :: stmts =>
    stmt.code messages used ++ blockCode messages (used + stmt.labelCount) stmts

def elseCode (messages : Messages) (used : Nat) : Option (List Stmt) → List Line
  | none => []
  | some stmts => blockCode messages used stmts

end

/-- Ends the program with the status zero. -/
def programEnd : List Line :=
  [.blank, .heading "program end", .instr (const .rax exitCall), .instr (clear .rdi),
    .instr syscall]

/-- The code of a whole program. -/
def Program.code (messages : Messages) (p : Program) : List Line :=
  blockCode messages 0 p ++ programEnd

end ImpAsm
