import ImpAsm.Error
import ImpAsm.Event
import ImpAsm.Stmt.Basic
import ImpAsm.Storage

namespace ImpAsm

/-- What is known at a point of a program: the names declared so far, wherever that was, the texts
printed so far, and what has been reported. -/
structure Scope where
  declared : List String
  messages : Messages
  events : Array Event

/-- A walk over a program in the order of its code that stops at the first undeclared name. -/
abbrev Walk := EStateM CompileError Scope

namespace Walk

def report (e : Event) : Walk Unit :=
  modify fun s => { s with events := s.events.push e }

/-- A name may be used once it is declared. -/
def use (x : String) : Walk Unit := do
  if (← get).declared.contains x then return () else throw (.undeclared x)

def declare (x : String) : Walk Unit :=
  modify fun s => { s with declared := x :: s.declared }

/-- Enters a printed text into the table. -/
def print (text : String) : Walk Unit := do
  let (id, messages) := (← get).messages.register text
  modify fun s => { s with messages := messages }
  report (.messageRegistered (messageLabel id))

/-- Right operands come before left ones. -/
def expr : Expr → Walk Unit
  | .num _ | .bool _ => return ()
  | .ident x => use x
  | .unary _ e => expr e
  | .binary op l r => do
    report (.operation op)
    expr r
    expr l

/-- Arguments are walked from the last to the first. -/
def arguments : List Expr → Walk Unit
  | [] => return ()
  | e :: es => do
    arguments es
    expr e

mutual

/-- A declaration counts from the end of its own value on, and a body that may not run counts
like one that does; the bodies of processors do not count. -/
def stmt : Stmt → Walk Unit
  | .exit e => expr e
  | .printText text => print text
  | .printValue e => do
    expr e
    report .valuePrinted
  | .declare x e => do
    expr e
    declare x
  | .assign x e => do
    use x
    expr e
  | .branch e yes no => do
    expr e
    stmts yes
    otherwise no
  | .loop e body => do
    expr e
    stmts body
  | .call _ args => arguments args
  | .processor p _ _ => report (.processorSkipped p)

def stmts : List Stmt → Walk Unit
  | [] => return ()
  | s :: ss => do
    stmt s
    stmts ss

def otherwise : Option (List Stmt) → Walk Unit
  | none => return ()
  | some ss => stmts ss

end

end Walk

end ImpAsm
