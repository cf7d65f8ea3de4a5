import ImpAsm.Assembly.Printer
import ImpAsm.Proofs.Semantics.Reference
import ImpAsm.Stmt.Code

namespace ImpAsm

/-- A value of a register or of the stack: a 64-bit word, or the address of a printed text. -/
inductive Value where
  | word (w : UInt64)
  | message (id : Nat)
deriving DecidableEq

namespace Value

/-- A 32-bit word in the low half of a register, with zeros above it. -/
def ofInt32 (v : Int32) : Value := word v.toUInt32.toUInt64

/-- The low half; that of an address is not known. -/
def low? : Value → Option Int32
  | word w => some w.toUInt32.toInt32
  | message _ => none

/-- The low byte. -/
def byte? : Value → Option UInt8
  | word w => some w.toUInt8
  | message _ => none

/-- Replaces the low byte. -/
def withByte? (v : Value) (b : UInt8) : Option Value :=
  match v with
  | word w => some (word ((w &&& 0xFFFFFFFFFFFFFF00) ||| b.toUInt64))
  | message _ => none

end Value

abbrev Registers := Reg → Value

/-- What is left of a line of code for a machine: an instruction or a label. -/
inductive Item where
  | instr (i : Instr)
  | label (name : String)
deriving DecidableEq

/-- A program that a machine has loaded: its code, its printed texts by number, and its variables
with their initial values. -/
structure Image where
  code : List Item
  messages : List (Nat × List UInt8)
  slots : List (String × Int32)
deriving DecidableEq

/-- The code behind a label. -/
def codeAt? (name : String) : List Item → Option (List Item)
  | [] => none
  | .label l :: rest => if l = name then some rest else codeAt? name rest
  | .instr _ :: rest => codeAt? name rest

/-- A machine that runs: its registers, its stack with the top first, the operands of the last
comparison, its variables, what it has done, and the code that is left. -/
structure State where
  regs : Registers
  stack : List Value
  flags : Int × Int
  memory : String → Option Int32
  trace : List (Effect Value)
  rest : List Item

/-- What functions do that the program calls. They may leave anything in the registers and flags,
and it may depend on all that has happened before. -/
abbrev Callee := String → State → Registers × (Int × Int)

def Cond.holds : Cond → Int × Int → Bool
  | e, (a, b) => a = b
  | ne, (a, b) => a ≠ b
  | l, (a, b) => a < b
  | le, (a, b) => a ≤ b
  | g, (a, b) => b < a
  | ge, (a, b) => b ≤ a

def Arith.eval : Arith → Int32 → Int32 → Int32
  | add, x, y => x + y
  | sub, x, y => x - y
  | imul, x, y => x * y

def ByteOp.eval : ByteOp → UInt8 → UInt8 → UInt8
  | and, x, y => x &&& y
  | or, x, y => x ||| y

namespace State

section

variable (s : State)

def low? (r : Reg) : Option Int32 := (s.regs r).low?

def set (r : Reg) (v : Value) : State :=
  { s with regs := fun r' => if r' = r then v else s.regs r' }

/-- Writes the low half of a register, which clears the high half. -/
def put (r : Reg) (v : Int32) : State := s.set r (.ofInt32 v)

def emit (e : Effect Value) : State := { s with trace := s.trace ++ [e] }

/-- Where the first arguments of a call are, and below them the others. -/
def argumentSlots : List Value := argumentRegisters.map s.regs ++ s.stack

/-- Divides the 64-bit number in two registers. A division by zero and a quotient that is no 32-bit
word are errors. -/
def divide (high low divisor : Int32) : Progress State :=
  let dividend := high.toInt * 2 ^ 32 + low.toUInt32.toNat
  let quotient := dividend.tdiv divisor.toInt
  if divisor = 0 ∨ quotient < -2 ^ 31 ∨ 2 ^ 31 ≤ quotient then .ended .divideError s
  else .running ((s.put .rax (.ofInt quotient)).put .rdx (.ofInt (dividend.tmod divisor.toInt)))

/-- Writes a printed text to the standard output, or ends the program. -/
def syscall? (img : Image) : Option (Progress State) :=
  if s.regs .rax = .word 1 then
    match s.regs .rdi, s.regs .rsi, s.regs .rdx with
    | .word 1, .message id, .word length => do
      let (_, bytes) ← img.messages.find? (·.1 == id)
      if length.toNat ≤ bytes.length then
        return .running (s.emit (.wrote (bytes.take length.toNat)))
      else none
    | _, _, _ => none
  else if s.regs .rax = .word 60 then do
    let status ← s.low? .rdi
    return .ended (.exited status) s
  else none

/-- One instruction, which has been taken from the code that is left. -/
def exec? (img : Image) (callee : Callee) : Instr → Option (Progress State)
  | .const dst value => some (.running (s.put dst (.ofInt value)))
  | .move dst src => do
    let x ← s.low? src
    return .running (s.put dst x)
  | .load dst x => do
    let value ← s.memory x
    return .running (s.put dst value)
  | .store x src => do
    let _ ← s.memory x
    let value ← s.low? src
    return .running { s with memory := fun y => if y = x then some value else s.memory y }
  | .address dst id => do
    let _ ← img.messages.find? (·.1 == id)
    return .running (s.set dst (.message id))
  | .neg dst => do
    let x ← s.low? dst
    return .running (s.put dst (-x))
  | .arith op dst src => do
    let x ← s.low? dst
    let y ← s.low? src
    return .running (s.put dst (op.eval x y))
  | .cdq => do
    let x ← s.low? .rax
    return .running (s.put .rdx (if x < 0 then -1 else 0))
  | .idiv src => do
    let high ← s.low? .rdx
    let low ← s.low? .rax
    let divisor ← s.low? src
    return s.divide high low divisor
  | .cmp left right => do
    let x ← s.low? left
    let y ← s.low? right
    return .running { s with flags := (x.toInt, y.toInt) }
  | .cmpZero left => do
    let x ← s.low? left
    return .running { s with flags := (x.toInt, 0) }
  | .test r => do
    let x ← s.low? r
    return .running { s with flags := (x.toUInt32.toNat, 0) }
  | .set cond dst => do
    let v ← (s.regs dst).withByte? (if cond.holds s.flags then 1 else 0)
    return .running (s.set dst v)
  | .bytes op dst src => do
    let x ← (s.regs dst).byte?
    let y ← (s.regs src).byte?
    let v ← (s.regs dst).withByte? (op.eval x y)
    return .running (s.set dst v)
  | .widen dst src => do
    let b ← (s.regs src).byte?
    return .running (s.set dst (.word b.toUInt64))
  | .clear dst => some (.running (s.put dst 0))
  | .push src => some (.running { s with stack := s.regs src :: s.stack })
  | .pop dst =>
    match s.stack with
    | [] => none
    | v :: stack => some (.running ({ s with stack }.set dst v))
  | .release size =>
    if size / 8 ≤ s.stack.length then some (.running { s with stack := s.stack.drop (size / 8) })
    else none
  | .jump target => do
    let rest ← codeAt? target.text img.code
    return .running { s with rest }
  | .jumpEqual target =>
    if Cond.e.holds s.flags then do
      let rest ← codeAt? target.text img.code
      return .running { s with rest }
    else some (.running s)
  | .call f =>
    let (regs, flags) := callee f s
    some (.running { s.emit (.called f s.argumentSlots) with regs, flags })
  | .syscall => s.syscall? img

end

/-- One step: the next instruction, or past the next label. -/
def step (img : Image) (callee : Callee) (s : State) : Progress State :=
  match s.rest with
  | [] => .stuck s
  | .label _ :: rest => .running { s with rest }
  | .instr i :: rest => ({ s with rest }.exec? img callee i).getD (.stuck s)

end State

/-- A machine that has loaded a program and starts it, whatever is in its registers and on its
stack. -/
def Image.start (img : Image) (regs : Registers) (stack : List Value) (flags : Int × Int) :
    State where
  regs := regs
  stack := stack
  flags := flags
  memory := fun x => (img.slots.find? (·.1 == x)).map (·.2)
  trace := []
  rest := (codeAt? "_start" img.code).getD []

end ImpAsm
