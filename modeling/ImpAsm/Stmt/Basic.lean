import ImpAsm.Expr.Basic

namespace ImpAsm

inductive Stmt where
  | exit (status : Expr)
  | printText (text : String)
  | printValue (value : Expr)
  | declare (name : String) (value : Expr)
  | assign (name : String) (value : Expr)
  | branch (condition : Expr) (yes : List Stmt) (no : Option (List Stmt))
  | loop (condition : Expr) (body : List Stmt)
  | call (name : String) (arguments : List Expr)
  | processor (name : String) (parameters : List String) (body : List Stmt)

/-- A program is its statements in source order. -/
abbrev Program := List Stmt

end ImpAsm
