import ImpAsm.Cursor
import ImpAsm.Expr.Basic
import ImpAsm.Text.Decimal

namespace ImpAsm

/-- An expression that has been read, with the height of its tree. -/
structure Operand where
  expr : Expr
  height : Nat
deriving DecidableEq

/-- A rule that reads an operand: it fails, or it takes at least one lexeme. -/
abbrev Reader := (c : Cursor) → Except SyntaxError (Operand × c.Beyond)

namespace Operand

def leaf (e : Expr) : Operand := ⟨e, 1⟩

/-- A new node is refused at `c` if its tree would be too high. -/
def node (c : Cursor) (e : Expr) (height : Nat) : Except SyntaxError Operand :=
  if nestingLimit < height then .error (c.error .expressionTooDeep) else .ok ⟨e, height⟩

/-- The binary operator at the cursor. -/
def binOp? (c : Cursor) : Option BinOp := c.operator?.bind BinOp.ofSymbol?

/-- Extends `left` by every operator at `c` that binds with at least the power `least`.
The right operand extends as far as tighter operators reach, so chains of one power lean left. -/
def extend (operand : Reader) (least : Nat) (left : Operand) (c : Cursor) :
    Except SyntaxError (Operand × c.Onward) :=
  match binOp? c with
  | none => .ok (left, ⟨c, Nat.le_refl _⟩)
  | some op =>
    if op.power < least then .ok (left, ⟨c, Nat.le_refl _⟩)
    else
      match operand c.next with
      | .error e => .error e
      | .ok (first, d) =>
        have hd := (Cursor.afterNext d).2
        match extend operand (op.power + 1) first d with
        | .error e => .error e
        | .ok (right, d') =>
          have hd' := Nat.lt_of_le_of_lt d'.2 hd
          match node d' (.binary op left.expr right.expr) (max left.height right.height + 1) with
          | .error e => .error e
          | .ok whole =>
            match extend operand least whole d' with
            | .error e => .error e
            | .ok (all, d'') => .ok (all, ⟨d'', Nat.le_of_lt (Nat.lt_of_le_of_lt d''.2 hd')⟩)
termination_by c.rest.length

/-- An operand followed by every operator that binds with at least the power `least`. -/
def climb (operand : Reader) (least : Nat) : Reader := fun c =>
  match operand c with
  | .error e => .error e
  | .ok (left, d) =>
    match extend operand least left d with
    | .error e => .error e
    | .ok (all, d') => .ok (all, ⟨d', Nat.lt_of_le_of_lt d'.2 d.2⟩)

/-- The integer at the cursor; a sign written before it is part of the number. -/
def integer (sign : String) (c : Cursor) (h : c.rest ≠ []) :
    Except SyntaxError (Operand × c.Beyond) :=
  match readWord? (sign ++ c.peek.text).toList with
  | none => .error (c.error .literalOutOfRange)
  | some w => .ok (leaf (.num w), c.following h)

/-- The expression in parentheses at the cursor. -/
def parenthesized (inner : Reader) : Reader := fun c =>
  match inner c.next with
  | .error e => .error e
  | .ok (operand, d) =>
    if d.1.peek.isSeparator ')' then
      .ok (operand, Cursor.afterNext ⟨d.1.next, Nat.lt_of_le_of_lt d.1.next_le d.2⟩)
    else .error (d.1.error (.expected ')' .closingParenthesis))

/-- An operand without an operator: a literal, a name or an expression in parentheses. -/
def primary (inner : Reader) : Reader := fun c =>
  if h : c.rest = [] then .error (c.error .expectedExpression)
  else
    match c.peek.kind with
    | .int => integer "" c h
    | .bool => .ok (leaf (.bool (c.peek.text == "true")), c.following h)
    | .ident => .ok (leaf (.ident c.peek.text), c.following h)
    | _ =>
      if c.peek.isSeparator '(' then parenthesized inner c
      else .error (c.error .expectedExpression)

/-- The unary operator at the cursor applied to what `operand` reads after it. -/
def applied (op : UnOp) (operand : Reader) : Reader := fun c =>
  match operand c.next with
  | .error e => .error e
  | .ok (inner, d) =>
    match node d (.unary op inner.expr) (inner.height + 1) with
    | .error e => .error e
    | .ok whole => .ok (whole, Cursor.afterNext d)

/-- A minus before an integer belongs to the integer, so the least word can be written. -/
def negated (operand : Reader) : Reader := fun c =>
  if h : c.next.rest ≠ [] ∧ c.next.peek.kind = .int then
    match integer "-" c.next h.1 with
    | .error e => .error e
    | .ok (whole, d) => .ok (whole, Cursor.afterNext d)
  else applied .neg operand c

/-- An operand with its unary operators, inside at most `allowance` unary operators and
parentheses. -/
def unary : Nat → Reader
  | 0 => fun c => .error (c.error .expressionTooDeep)
  | allowance + 1 => fun c =>
    if c.operator? = some "-" then negated (unary allowance) c
    else if c.operator? = some "!" then applied .not (unary allowance) c
    else primary (climb (unary allowance) 1) c

end Operand

/-- Reads one expression. -/
def readExpr : Reader := Operand.climb (Operand.unary nestingLimit) 1

/-- Reads one expression from token number `start` on; gives it with the number of the token
after it. -/
def parseExpr (tokens : List Token) (start : Nat) : Except SyntaxError (Expr × Nat) :=
  match readExpr (.ofTokens tokens start) with
  | .error e => .error e
  | .ok (operand, d) => .ok (operand.expr, d.1.index)

end ImpAsm
