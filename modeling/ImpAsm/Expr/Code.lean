import ImpAsm.Assembly.Basic
import ImpAsm.Expr.Basic

namespace ImpAsm

open Instr

/-- Turns the outcome of the last comparison into 0 or 1 in `eax`. -/
def truth (cond : Cond) : List Instr := [set cond .rax, widen .rax .rax]

/-- Joins the truth of `eax` and of `ebx` by `op`. -/
def truthOfBoth (op : ByteOp) : List Instr :=
  [test .rax, set .ne .rax, test .rbx, set .ne .rbx, bytes op .rax .rbx, widen .rax .rax]

/-- Combines the left operand in `eax` with the right one in `ebx`. -/
def BinOp.combine : BinOp → List Instr
  | add => [arith .add .rax .rbx]
  | sub => [arith .sub .rax .rbx]
  | mul => [arith .imul .rax .rbx]
  | div => [cdq, idiv .rbx]
  | eq => cmp .rax .rbx :: truth .e
  | ne => cmp .rax .rbx :: truth .ne
  | lt => cmp .rax .rbx :: truth .l
  | le => cmp .rax .rbx :: truth .le
  | gt => cmp .rax .rbx :: truth .g
  | ge => cmp .rax .rbx :: truth .ge
  | and => truthOfBoth .and
  | or => truthOfBoth .or

def UnOp.apply : UnOp → List Instr
  | neg => [Instr.neg .rax]
  | not => test .rax :: truth .e

/-- Code that leaves the value of the expression in `eax`. The right operand of a binary
operation comes first and waits on the stack while the left one is computed. -/
def Expr.code : Expr → List Instr
  | num value => [const .rax value.toInt]
  | bool value => [const .rax (if value then 1 else 0)]
  | ident x => [load .rax x]
  | unary op e => e.code ++ op.apply
  | binary op l r => r.code ++ push .rax :: (l.code ++ pop .rbx :: op.combine)

end ImpAsm
