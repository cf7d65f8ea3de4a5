import ImpAsm.Stmt.Basic
import ImpAsm.Text.Decimal
import ImpAsm.Text.Outline
import ImpAsm.Text.Quoted
import ImpAsm.Token.Basic

namespace ImpAsm

open Outline

private def literal (s : String) : Outline := atom (quoted s)

private def count (n : Nat) : Outline := atom (toString n)

def TokenKind.outline : TokenKind → Outline
  | keyword k => tuple "Keyword" [atom k.name]
  | kind => atom kind.name

def Position.outline (p : Position) : Outline :=
  record "Span" [("offset", count p.offset), ("line", count p.line), ("column", count p.column)]

def Token.outline (t : Token) : Outline :=
  record "Token"
    [("kind", t.kind.outline), ("text", literal t.text), ("span", t.position.outline)]

/-- The dump of a token sequence. -/
def tokensOutline (tokens : List Token) : Outline := list (tokens.map Token.outline)

/-- How dumps name the operator. -/
def BinOp.name : BinOp → String
  | or => "LogicalOr"
  | and => "LogicalAnd"
  | eq => "Equal"
  | ne => "NotEqual"
  | lt => "LessThan"
  | le => "LessEqual"
  | gt => "GreaterThan"
  | ge => "GreaterEqual"
  | add => "Add"
  | sub => "Sub"
  | mul => "Mul"
  | div => "Div"

/-- How dumps name the operator. -/
def UnOp.name : UnOp → String
  | neg => "Neg"
  | not => "Not"

def Expr.outline : Expr → Outline
  | num value => tuple "Num" [atom (wordText value)]
  | bool value => tuple "Bool" [atom (if value then "true" else "false")]
  | ident x => tuple "Ident" [literal x]
  | binary op l r => tuple "Binary" [atom op.name, l.outline, r.outline]
  | unary op e => tuple "Unary" [atom op.name, e.outline]

mutual

def Stmt.outline : Stmt → Outline
  | .exit e => tuple "Exit" [e.outline]
  | .printText text => tuple "Print" [tuple "Str" [literal text]]
  | .printValue e => tuple "Print" [tuple "Expr" [e.outline]]
  | .declare x e => tuple "Let" [literal x, e.outline]
  | .assign x e => tuple "Assign" [literal x, e.outline]
  | .branch e yes no =>
    tuple "If" [e.outline, tuple "Block" [list (stmtOutlines yes)], elseOutline no]
  | .loop e body => tuple "While" [e.outline, tuple "Block" [list (stmtOutlines body)]]
  | .call f args => tuple "Call" [literal f, list (args.map Expr.outline)]
  | .processor p params body =>
    tuple "Processor"
      [literal p, list (params.map literal), tuple "Block" [list (stmtOutlines body)]]

def stmtOutlines : List Stmt → List Outline
  | [] => []
  | stmt :: stmts => stmt.outline :: stmtOutlines stmts

def elseOutline : Option (List Stmt) → Outline
  | none => atom "None"
  | some stmts => tuple "Some" [tuple "Block" [list (stmtOutlines stmts)]]

end

/-- The dump of a program. -/
def programOutline (p : Program) : Outline := tuple "Program" [list (stmtOutlines p)]

end ImpAsm
