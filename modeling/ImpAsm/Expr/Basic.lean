namespace ImpAsm

inductive BinOp where
  | or | and | eq | ne | lt | le | gt | ge | add | sub | mul | div
deriving DecidableEq

namespace BinOp

def all : List BinOp := [or, and, eq, ne, lt, le, gt, ge, add, sub, mul, div]

def symbol : BinOp → String
  | or => "||"
  | and => "&&"
  | eq => "=="
  | ne => "!="
  | lt => "<"
  | le => "<="
  | gt => ">"
  | ge => ">="
  | add => "+"
  | sub => "-"
  | mul => "*"
  | div => "/"

/-- How tightly the operator binds; higher binds tighter. -/
def power : BinOp → Nat
  | or => 1
  | and => 2
  | eq | ne => 3
  | lt | le | gt | ge => 4
  | add | sub => 5
  | mul | div => 6

def ofSymbol? (s : String) : Option BinOp := all.find? (·.symbol == s)

theorem ofSymbol?_symbol (op : BinOp) : ofSymbol? op.symbol = some op := by
  cases op <;> decide

end BinOp

inductive UnOp where
  | neg | not
deriving DecidableEq

def UnOp.symbol : UnOp → String
  | neg => "-"
  | not => "!"

inductive Expr where
  | num (value : Int32)
  | bool (value : Bool)
  | ident (name : String)
  | binary (op : BinOp) (left right : Expr)
  | unary (op : UnOp) (operand : Expr)
deriving DecidableEq

/-- The number of nodes on the longest path from the root to a leaf. -/
def Expr.height : Expr → Nat
  | num _ | bool _ | ident _ => 1
  | binary _ l r => max l.height r.height + 1
  | unary _ e => e.height + 1

end ImpAsm
