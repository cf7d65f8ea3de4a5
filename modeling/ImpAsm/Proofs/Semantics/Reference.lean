import Mathlib
import ImpAsm.Proofs.Semantics.Run
import ImpAsm.Stmt.Basic

namespace ImpAsm

/-- The values of the variables of a program. -/
abbrev Store := String → Int32

def truthValue (b : Bool) : Int32 := if b then 1 else 0

def UnOp.eval : UnOp → Int32 → Int32
  | neg, x => -x
  | not, x => truthValue (x = 0)

/-- Arithmetic wraps around, and comparisons and connectives give 0 or 1. A division by zero and a
quotient that is no 32-bit word have no value. -/
def BinOp.eval? (op : BinOp) (x y : Int32) : Option Int32 :=
  match op with
  | add => some (x + y)
  | sub => some (x - y)
  | mul => some (x * y)
  | div => if y = 0 ∨ x = Int32.minValue ∧ y = -1 then none else some (x / y)
  | eq => some (truthValue (x = y))
  | ne => some (truthValue (x ≠ y))
  | lt => some (truthValue (x < y))
  | le => some (truthValue (x ≤ y))
  | gt => some (truthValue (y < x))
  | ge => some (truthValue (y ≤ x))
  | and => some (truthValue (x ≠ 0 ∧ y ≠ 0))
  | or => some (truthValue (x ≠ 0 ∨ y ≠ 0))

/-- The value of an expression, the right operand first; there is none if a division fails. -/
def Expr.eval? (store : Store) : Expr → Option Int32
  | num value => some value
  | bool value => some (truthValue value)
  | ident x => some (store x)
  | unary op e => do
    let x ← e.eval? store
    return op.eval x
  | binary op l r => do
    let y ← r.eval? store
    let x ← l.eval? store
    op.eval? x y

/-- The values of arguments, the last one first. -/
def evalArguments? (store : Store) : List Expr → Option (List Int32)
  | [] => some []
  | e :: es => do
    let values ← evalArguments? store es
    let value ← e.eval? store
    return value :: values

/-- What a program does to the world: it writes bytes to the standard output, and it calls
functions. -/
inductive Effect (α : Type) where
  | wrote (bytes : List UInt8)
  | called (function : String) (arguments : List α)

/-- The bytes that printing a text writes: the text and a line feed. The number of bytes of a write
is a 32-bit word, which cuts texts of four gibibytes and more. -/
def printedBytes (text : String) : List UInt8 :=
  (text.toUTF8.data.toList ++ [10]).take ((text.utf8ByteSize + 1) % 2 ^ 32)

/-- A program that runs: the statements that are left, the variables, and what it has done. -/
structure Config where
  todo : List Stmt
  store : Store
  trace : List (Effect Int32)

namespace Config

def assign (c : Config) (x : String) (value : Int32) : Config :=
  { c with store := fun y => if y = x then value else c.store y }

def emit (c : Config) (e : Effect Int32) : Config := { c with trace := c.trace ++ [e] }

/-- Goes on with the value of an expression. -/
def evaluating (c : Config) (e : Expr) (f : Int32 → Progress Config) : Progress Config :=
  match e.eval? c.store with
  | some value => f value
  | none => .ended .divideError c

/-- One step of a program: its first statement. The statements of a block are put before those that
follow it. -/
def step (c : Config) : Progress Config :=
  match c.todo with
  | [] => .ended (.exited 0) c
  | s :: todo =>
    match s with
    | .exit e => c.evaluating e fun status => .ended (.exited status) c
    | .printText text => .running ({ c with todo }.emit (.wrote (printedBytes text)))
    | .printValue e => c.evaluating e fun _ => .running { c with todo }
    | .declare x e | .assign x e =>
      c.evaluating e fun value => .running ({ c with todo }.assign x value)
    | .branch e yes no =>
      c.evaluating e fun value =>
        .running { c with todo := (if value ≠ 0 then yes else no.getD []) ++ todo }
    | .loop e body =>
      c.evaluating e fun value =>
        .running { c with todo := if value ≠ 0 then body ++ .loop e body :: todo else todo }
    | .call f args =>
      match evalArguments? c.store args with
      | some values => .running ({ c with todo }.emit (.called f values))
      | none => .ended .divideError c
    | .processor _ _ _ => .running { c with todo }

end Config

mutual

/-- The declarations in a statement, from left to right; processor bodies count. -/
def Stmt.lets : Stmt → List (String × Expr)
  | .declare x e => [(x, e)]
  | .branch _ yes no => stmtsLets yes ++ elseLets no
  | .loop _ body => stmtsLets body
  | .processor _ _ body => stmtsLets body
  | .exit _ | .printText _ | .printValue _ | .assign _ _ | .call _ _ => []

def stmtsLets : List Stmt → List (String × Expr)
  | [] => []
  | s :: ss => s.lets ++ stmtsLets ss

def elseLets : Option (List Stmt) → List (String × Expr)
  | none => []
  | some ss => stmtsLets ss

end

/-- The names that a program declares. -/
def Program.vars (p : Program) : List String := (stmtsLets p).map (·.1)

/-- A name starts at the literal of its first declaration if that is one, and at zero otherwise. -/
def initialStore (p : Program) : Store := fun x =>
  match (stmtsLets p).find? (·.1 == x) with
  | some (_, .num value) => value
  | _ => 0

/-- A program before its first step. -/
def Config.start (p : Program) : Config := ⟨p, initialStore p, []⟩

end ImpAsm
