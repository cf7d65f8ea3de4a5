import ImpAsm.Proofs.Expr.Names
import ImpAsm.Proofs.Source.Words
import ImpAsm.Proofs.Stmt.Outline

namespace ImpAsm

def inParens (ws : List Word) : List Word := .separator '(' :: (ws ++ [.separator ')'])

def inBraces (ws : List Word) : List Word := .separator '\x7b' :: (ws ++ [.separator '\x7d'])

/-- Groups of words with commas between them. -/
def commaWords : List (List Word) → List Word
  | [] => []
  | [ws] => ws
  | ws :: vs :: wss => ws ++ .separator ',' :: commaWords (vs :: wss)

namespace Expr

/-- Whether the expression has an operator. -/
def isCompound : Expr → Bool
  | binary _ _ _ | unary _ _ => true
  | num _ | bool _ | ident _ => false

/-- Whether the expression is written as digits only. -/
def isNatural : Expr → Bool
  | num w => 0 ≤ w.toInt
  | _ => false

/-- Whether the operand of a unary operator needs parentheses. A number without a sign would lose
its node behind a minus. -/
def needsParens (op : UnOp) (e : Expr) : Bool := e.isCompound || op == .neg && e.isNatural

/-- Words in parentheses, if they need them. -/
def enclosed (needed : Bool) (ws : List Word) : List Word := if needed then inParens ws else ws

/-- The words of an expression, with parentheses around its compound operands. -/
def words : Expr → List Word
  | num w =>
    if w.toInt < 0 then [.operator "-", .digits w.toInt.natAbs] else [.digits w.toInt.natAbs]
  | bool b => [.truth b]
  | ident x => [.name x]
  | binary op l r =>
    enclosed l.isCompound l.words ++ .operator op.symbol :: enclosed r.isCompound r.words
  | unary op e => .operator op.symbol :: enclosed (needsParens op e) e.words

/-- How many unary operators and parentheses a word of the printed expression stands inside, at
most. -/
def printedNesting : Expr → Nat
  | num _ | bool _ | ident _ => 0
  | binary _ l r =>
    max (l.printedNesting + l.isCompound.toNat) (r.printedNesting + r.isCompound.toNat)
  | unary op e => e.printedNesting + (needsParens op e).toNat + 1

/-- The expressions that can be read back. -/
structure Printable (e : Expr) : Prop where
  names : ∀ x ∈ e.names, IsIdentifier x
  height : e.height ≤ nestingLimit
  nesting : e.printedNesting < nestingLimit

end Expr

mutual

/-- The words behind the keyword of a statement. -/
def Stmt.tailWords : Stmt → List Word
  | .exit e | .printValue e => inParens e.words ++ [.separator ';']
  | .printText t => inParens [.quoted t] ++ [.separator ';']
  | .declare x e | .assign x e => .name x :: .operator "=" :: (e.words ++ [.separator ';'])
  | .branch e yes no => inParens e.words ++ (inBraces (stmtsWords yes) ++ elseWords no)
  | .loop e body => inParens e.words ++ inBraces (stmtsWords body)
  | .call f args => .name f :: (inParens (commaWords (args.map Expr.words)) ++ [.separator ';'])
  | .processor p params body =>
    .name p :: (inParens (commaWords (params.map fun x => [.name x])) ++ inBraces (stmtsWords body))

/-- The words of statements, one statement after the other. -/
def stmtsWords : List Stmt → List Word
  | [] => []
  | s :: ss => .keyword s.keyword :: (s.tailWords ++ stmtsWords ss)

def elseWords : Option (List Stmt) → List Word
  | none => []
  | some ss => .keyword .otherwise :: inBraces (stmtsWords ss)

end

/-- Writes a program. -/
def sourceText (p : Program) : String := spacedText (stmtsWords p)

mutual

/-- The statements whose names, strings and expressions can be read back. -/
def Stmt.Printable : Stmt → Prop
  | .exit e | .printValue e => e.Printable
  | .printText t => '"' ∉ t.toList
  | .declare x e | .assign x e => IsIdentifier x ∧ e.Printable
  | .branch e yes no => e.Printable ∧ StmtsPrintable yes ∧ ElsePrintable no
  | .loop e body => e.Printable ∧ StmtsPrintable body
  | .call f args => IsIdentifier f ∧ ∀ e ∈ args, e.Printable
  | .processor p params body =>
    IsIdentifier p ∧ (∀ x ∈ params, IsIdentifier x) ∧ StmtsPrintable body

def StmtsPrintable : List Stmt → Prop
  | [] => True
  | s :: ss => s.Printable ∧ StmtsPrintable ss

def ElsePrintable : Option (List Stmt) → Prop
  | none => True
  | some ss => StmtsPrintable ss

end

end ImpAsm
