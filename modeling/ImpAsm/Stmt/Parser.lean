import ImpAsm.Event
import ImpAsm.Expr.Parser
import ImpAsm.Stmt.Basic

namespace ImpAsm

/-- How far a program has been read, and what has been reported on the way. -/
structure ParseState where
  cursor : Cursor
  events : Array Event

/-- The states that have not moved back from `s`. -/
abbrev ParseState.Onward (s : ParseState) :=
  { t : ParseState // t.cursor.rest.length ≤ s.cursor.rest.length }

/-- A rule that reads part of a program and never moves back. One that fails stays at the token it
failed at. -/
def Parse (α : Type) := (s : ParseState) → EStateM.Result SyntaxError s.Onward α

namespace Parse

instance : Monad Parse where
  pure a := fun s => .ok a ⟨s, Nat.le_refl _⟩
  bind x f := fun s =>
    match x s with
    | .error e t => .error e t
    | .ok a t =>
      match f a t.1 with
      | .error e u => .error e ⟨u.1, Nat.le_trans u.2 t.2⟩
      | .ok b u => .ok b ⟨u.1, Nat.le_trans u.2 t.2⟩

/-- Runs a rule. -/
def run {α : Type} (p : Parse α) (s : ParseState) : EStateM.Result SyntaxError ParseState α :=
  match p s with
  | .error e t => .error e t.1
  | .ok a t => .ok a t.1

@[simp] theorem run_pure {α : Type} (a : α) (s : ParseState) :
    (pure a : Parse α).run s = .ok a s := rfl

/-- Rules run one after the other; the first failure ends the run. -/
theorem run_bind {α β : Type} (x : Parse α) (f : α → Parse β) (s : ParseState) :
    (x >>= f).run s =
      match x.run s with
      | .error e t => .error e t
      | .ok a t => (f a).run t := by
  simp only [run, bind]
  cases x s with
  | error e t => rfl
  | ok a t =>
    dsimp only
    cases f a t.1 <;> rfl

def here : Parse Cursor := fun s => .ok s.cursor ⟨s, Nat.le_refl _⟩

def peek : Parse Token := Cursor.peek <$> here

/-- Takes the lexeme at the cursor. -/
def skip : Parse Unit := fun s =>
  .ok () ⟨{ s with cursor := s.cursor.next }, s.cursor.next_le⟩

def report (e : Event) : Parse Unit := fun s =>
  .ok () ⟨{ s with events := s.events.push e }, Nat.le_refl _⟩

def fail {α : Type} (fault : SyntaxFault) : Parse α := fun s =>
  .error (s.cursor.error fault) ⟨s, Nat.le_refl _⟩

/-- Takes the separator `c`. -/
def separator (c : Char) (place : Place) : Parse Unit := do
  if (← peek).isSeparator c then skip else fail (.expected c place)

/-- Takes the operator that binds a value to a name. -/
def equals (place : Place) : Parse Unit := do
  if (← here).operator? = some "=" then skip else fail (.expected '=' place)

def name (place : Place) : Parse String := do
  let t ← peek
  if t.kind = .ident then
    skip
    return t.text
  else fail (.expectedName place)

/-- Reads an expression; one that cannot be read leaves the cursor where it was. -/
def expression : Parse Expr := fun s =>
  match readExpr s.cursor with
  | .error e => .error e ⟨s, Nat.le_refl _⟩
  | .ok (operand, d) =>
    .ok operand.expr
      ⟨⟨d, s.events.push (.expressionParsed s.cursor.index d.1.index operand.height)⟩,
        Nat.le_of_lt d.2⟩

/-- Reads items as long as the token at the cursor starts one. That token is taken first, and
`item?` gives the rule for what follows it. -/
def items {α : Type} (item? : Token → Option (Parse α)) (s : ParseState) :
    EStateM.Result SyntaxError s.Onward (List α) :=
  if h : s.cursor.rest = [] then .ok [] ⟨s, Nat.le_refl _⟩
  else
    match item? s.cursor.peek with
    | none => .ok [] ⟨s, Nat.le_refl _⟩
    | some item =>
      have hn := Cursor.next_lt h
      match item { s with cursor := s.cursor.next } with
      | .error e t => .error e ⟨t.1, Nat.le_trans t.2 s.cursor.next_le⟩
      | .ok a t =>
        have ht := Nat.lt_of_le_of_lt t.2 hn
        match items item? t.1 with
        | .error e u => .error e ⟨u.1, Nat.le_of_lt (Nat.lt_of_le_of_lt u.2 ht)⟩
        | .ok as u => .ok (a :: as) ⟨u.1, Nat.le_of_lt (Nat.lt_of_le_of_lt u.2 ht)⟩
termination_by s.cursor.rest.length

/-- Reads items one after the other; see `items`. -/
def many {α : Type} (item? : Token → Option (Parse α)) : Parse (List α) := items item?

/-- One turn of the repetition: take the token, read what follows it, and go on. -/
theorem run_many {α : Type} (item? : Token → Option (Parse α)) (s : ParseState) :
    (many item?).run s =
      if s.cursor.rest = [] then .ok [] s
      else
        match item? s.cursor.peek with
        | none => .ok [] s
        | some item =>
          (do
            let a ← item
            let as ← many item?
            return a :: as : Parse (List α)).run { s with cursor := s.cursor.next } := by
  by_cases h : s.cursor.rest = []
  · simp [run, many, items, h]
  · simp only [run, many, h, if_false]
    rw [items, dif_neg h]
    cases item? s.cursor.peek with
    | none => rfl
    | some item =>
      simp only [bind]
      cases item { s with cursor := s.cursor.next } with
      | error e t => rfl
      | ok a t =>
        dsimp only
        cases items item? t.1 <;> rfl

/-- Items between commas up to a closing parenthesis, which may follow at once. -/
def commaList {α : Type} (item : Parse α) (place : Place) : Parse (List α) := do
  if (← peek).isSeparator ')' then
    skip
    return []
  else
    let first ← item
    let others ← many fun t => if t.isSeparator ',' then some item else none
    separator ')' place
    return first :: others

/-- The name, the equals sign, the value and the semicolon of a `let` or an `assign`. -/
def binding (k : Keyword) : Parse (String × Expr) := do
  let x ← name (.afterKeyword k)
  equals .afterVariableName
  let e ← expression
  separator ';' (.afterStatement k)
  return (x, e)

/-- The condition in parentheses of an `if` or a `while`. -/
def condition (k : Keyword) : Parse Expr := do
  separator '(' (.afterKeyword k)
  let e ← expression
  separator ')' (.afterCondition k)
  return e

/-- What follows the keyword of a statement; no statement starts with `else`. -/
def form? (block : Place → Parse (List Stmt)) : Keyword → Option (Parse Stmt)
  | .exit => some do
    separator '(' (.afterKeyword .exit)
    let e ← expression
    separator ')' .afterExitStatus
    separator ';' (.afterStatement .exit)
    return .exit e
  | .print => some do
    separator '(' (.afterKeyword .print)
    let t ← peek
    let stmt ← if t.kind = .str then do
        skip
        pure (Stmt.printText t.text)
      else Stmt.printValue <$> expression
    separator ')' .afterPrintArgument
    separator ';' (.afterStatement .print)
    return stmt
  | .declare => some do
    let (x, e) ← binding .declare
    return .declare x e
  | .assign => some do
    let (x, e) ← binding .assign
    return .assign x e
  | .branch => some do
    let e ← condition .branch
    let yes ← block (.afterCondition .branch)
    if (← peek).isKeyword .otherwise then
      skip
      let no ← block (.afterKeyword .otherwise)
      return .branch e yes (some no)
    else return .branch e yes none
  | .loop => some do
    let e ← condition .loop
    let body ← block (.afterCondition .loop)
    return .loop e body
  | .call => some do
    let f ← name (.afterKeyword .call)
    separator '(' .afterFunctionName
    let args ← commaList expression .afterCallArguments
    separator ';' (.afterStatement .call)
    return .call f args
  | .processor => some do
    let p ← name (.afterKeyword .processor)
    separator '(' .afterProcessorName
    let params ← commaList (name .inParameterList) .afterParameterList
    let body ← block .afterParameterList
    return .processor p params body
  | .otherwise => none

/-- The statements from the cursor on, whose blocks are read by `block`. -/
def statements (block : Place → Parse (List Stmt)) : Parse (List Stmt) :=
  many fun t =>
    match t.kind with
    | .keyword k => (form? block k).map fun form => do
      let stmt ← form
      report (.statementParsed k)
      return stmt
    | _ => none

/-- Fails at a token that starts no statement. -/
def noStatement {α : Type} : Parse α := do
  if (← peek).isKeyword .otherwise then fail .strayElse else fail .expectedStatement

/-- The statements between braces, with at most `allowance` blocks nested in one another. -/
def block : Nat → Place → Parse (List Stmt)
  | 0, place => do
    separator '\x7b' place
    fail .blockTooDeep
  | allowance + 1, place => do
    separator '\x7b' place
    let body ← statements (block allowance)
    if (← peek).isSeparator '\x7d' then
      skip
      return body
    else if (← here).atEnd then fail (.expected '\x7d' .closingBlock)
    else noStatement

/-- The statements up to the end of the input. -/
def program : Parse Program := do
  let stmts ← statements (block nestingLimit)
  if (← here).atEnd then
    report (.programParsed stmts.length)
    return stmts
  else noStatement

end Parse

end ImpAsm
