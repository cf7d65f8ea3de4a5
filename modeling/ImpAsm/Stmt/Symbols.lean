import ImpAsm.Stmt.Basic
import ImpAsm.Storage

namespace ImpAsm

/-- What a program needs from outside its code: data for variables, and functions to call. -/
structure Symbols where
  vars : Variables
  externals : List String
deriving DecidableEq

/-- A variable starts at the literal of its declaration, and at zero if that is not a literal. -/
def Expr.initialValue : Expr → Int32
  | num value => value
  | _ => 0

/-- Adds a function at the end unless it is there already. -/
def Symbols.addExternal (s : Symbols) (f : String) : Symbols :=
  if s.externals.contains f then s else { s with externals := s.externals ++ [f] }

mutual

/-- The symbols `s` with those of a statement and its blocks; processor bodies count. -/
def Stmt.collect (s : Symbols) : Stmt → Symbols
  | .declare x e => { s with vars := s.vars.declare x e.initialValue }
  | .branch _ yes no => collectElse (collectAll s yes) no
  | .loop _ body => collectAll s body
  | .processor _ _ body => collectAll s body
  | .call f _ => s.addExternal f
  | .exit _ | .printText _ | .printValue _ | .assign _ _ => s

def collectAll (s : Symbols) : List Stmt → Symbols
  | [] => s
  | stmt :: stmts => collectAll (stmt.collect s) stmts

def collectElse (s : Symbols) : Option (List Stmt) → Symbols
  | none => s
  | some stmts => collectAll s stmts

end

/-- All symbols of a program. -/
def Program.symbols (p : Program) : Symbols := collectAll ⟨.empty, []⟩ p

end ImpAsm
