import ImpAsm.Storage

namespace ImpAsm

/-- The 64-bit registers that generated code uses; the stack pointer is implicit. -/
inductive Reg where
  | rax | rbx | rcx | rdx | rsi | rdi | r8 | r9
deriving DecidableEq

/-- The conditions that a comparison can leave behind, on signed words. -/
inductive Cond where
  | e | ne | l | le | g | ge
deriving DecidableEq

/-- Arithmetic that replaces its left register by the result. -/
inductive Arith where
  | add | sub | imul
deriving DecidableEq

/-- Bitwise operations on the low bytes of two registers. -/
inductive ByteOp where
  | and | or
deriving DecidableEq

/-- What a code label marks. -/
inductive LabelRole where
  | otherwise | loop | done
deriving DecidableEq

/-- A code label; its number is unique in the program. -/
structure Label where
  role : LabelRole
  number : Nat
deriving DecidableEq

/-- The instructions of generated code. Arithmetic works on the low 32 bits of a register. -/
inductive Instr where
  /-- Puts a constant into a register. -/
  | const (dst : Reg) (value : Int)
  | move (dst src : Reg)
  /-- Reads and writes a variable of the data section. -/
  | load (dst : Reg) (x : String)
  | store (x : String) (src : Reg)
  /-- Puts the address of a printed text into a register. -/
  | address (dst : Reg) (message : Nat)
  | neg (dst : Reg)
  | arith (op : Arith) (dst src : Reg)
  /-- Extends the sign of `eax` into `edx`. -/
  | cdq
  /-- Divides `edx:eax` by a register. -/
  | idiv (src : Reg)
  | cmp (left right : Reg)
  | cmpZero (left : Reg)
  /-- Compares a register with zero by a bitwise test. -/
  | test (r : Reg)
  /-- Sets the low byte of a register to the truth of a condition. -/
  | set (cond : Cond) (dst : Reg)
  | bytes (op : ByteOp) (dst src : Reg)
  /-- Extends the low byte of a register by zeros. -/
  | widen (dst src : Reg)
  | clear (dst : Reg)
  | push (src : Reg)
  | pop (dst : Reg)
  /-- Removes bytes from the top of the stack. -/
  | release (size : Nat)
  | jump (target : Label)
  /-- Jumps if the last comparison found equality. -/
  | jumpEqual (target : Label)
  | call (function : String)
  | syscall
deriving DecidableEq

/-- A line of the text section. -/
inductive Line where
  | instr (i : Instr)
  /-- An instruction with a remark behind it. -/
  | noted (i : Instr) (note : String)
  | label (l : Label)
  /-- A remark in the place of an instruction. -/
  | remark (note : String)
  /-- A remark that heads the lines below it. -/
  | heading (note : String)
  | blank
deriving DecidableEq

/-- An assembly program: the functions it calls, its code and its data. -/
structure Assembly where
  externals : List String
  code : List Line
  messages : Messages
  vars : Variables
deriving DecidableEq

end ImpAsm
