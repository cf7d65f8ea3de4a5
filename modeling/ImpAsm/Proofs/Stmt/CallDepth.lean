import ImpAsm.Compilation
import ImpAsm.Proofs.Expr.CallDepth

namespace ImpAsm

namespace Parse

variable {α β : Type}

/-- What a rule gives, and where it stops. -/
def outcome (p : Parse α) (s : ParseState) : Except SyntaxError α × ParseState :=
  match p.run s with
  | .error e t => (.error e, t)
  | .ok a t => (.ok a, t)

theorem outcome_bind (x : Parse α) (f : α → Parse β) (s : ParseState) :
    (x >>= f).outcome s =
      match x.outcome s with
      | (.error e, t) => (.error e, t)
      | (.ok a, t) => (f a).outcome t := by
  unfold outcome
  rw [run_bind]
  cases x.run s <;> rfl

/-- One turn of the repetition; see `run_many`. -/
theorem outcome_many (item? : Token → Option (Parse α)) (s : ParseState) :
    (many item?).outcome s =
      if s.cursor.rest = [] then (.ok [], s)
      else
        match item? s.cursor.peek with
        | none => (.ok [], s)
        | some item =>
          (do
            let a ← item
            let as ← many item?
            return a :: as : Parse (List α)).outcome { s with cursor := s.cursor.next } := by
  unfold outcome
  rw [run_many]
  by_cases hrest : s.cursor.rest = []
  · simp only [if_pos hrest]
  · simp only [if_neg hrest]
    cases item? s.cursor.peek <;> rfl

/-- A rule that takes the lexemes between the place where it starts and the place where it stops. -/
def Moves (p : Parse α) : Prop :=
  ∀ s : ParseState, s.cursor.Proper → ∃ ls, s.cursor.Spans ls (p.outcome s).2.cursor

theorem Moves.bind {x : Parse α} {f : α → Parse β} (hx : x.Moves) (hf : ∀ a, (f a).Moves) :
    (x >>= f).Moves := by
  intro s hs
  obtain ⟨ls, hls⟩ := hx s hs
  rw [outcome_bind]
  generalize x.outcome s = r at hls ⊢
  obtain ⟨e | a, t⟩ := r
  · exact ⟨ls, hls⟩
  · obtain ⟨ms, hms⟩ := hf a t (hs.of_spans hls)
    exact ⟨ls ++ ms, hls.trans hms⟩

theorem Moves.ite {x y : Parse α} {b : Prop} [Decidable b] (hx : x.Moves) (hy : y.Moves) :
    (if b then x else y).Moves := by
  split
  · exact hx
  · exact hy

theorem moves_pure (a : α) : (pure a : Parse α).Moves := fun _ _ => ⟨[], .refl _⟩

theorem moves_here : here.Moves := fun _ _ => ⟨[], .refl _⟩

theorem moves_peek : peek.Moves := fun _ _ => ⟨[], .refl _⟩

theorem moves_report (e : Event) : (report e).Moves := fun _ _ => ⟨[], .refl _⟩

theorem moves_fail (fault : SyntaxFault) : (fail fault : Parse α).Moves := fun _ _ => ⟨[], .refl _⟩

theorem moves_skip : skip.Moves := fun s _ => s.cursor.exists_spans_next

theorem moves_separator (c : Char) (place : Place) : (separator c place).Moves :=
  moves_peek.bind fun _ => .ite moves_skip (moves_fail _)

theorem moves_equals (place : Place) : (equals place).Moves :=
  moves_here.bind fun _ => .ite moves_skip (moves_fail _)

theorem moves_name (place : Place) : (name place).Moves :=
  moves_peek.bind fun t => .ite (moves_skip.bind fun _ => moves_pure t.text) (moves_fail _)

theorem moves_noStatement : (noStatement : Parse α).Moves :=
  moves_peek.bind fun _ => .ite (moves_fail _) (moves_fail _)

/-- Takes the brace behind the statements of a block. -/
def closeBlock (body : List Stmt) : Parse (List Stmt) := do
  if (← peek).isSeparator '\x7d' then
    skip
    return body
  else if (← here).atEnd then fail (.expected '\x7d' .closingBlock)
  else noStatement

/-- Expects the end of the input behind the statements of a program. -/
def closeProgram (stmts : List Stmt) : Parse Program := do
  if (← here).atEnd then
    report (.programParsed stmts.length)
    return stmts
  else noStatement

theorem moves_closeBlock (body : List Stmt) : (closeBlock body).Moves :=
  moves_peek.bind fun _ => .ite (moves_skip.bind fun _ => moves_pure body)
    (moves_here.bind fun _ => .ite (moves_fail _) moves_noStatement)

theorem moves_closeProgram (stmts : List Stmt) : (closeProgram stmts).Moves :=
  moves_here.bind fun _ => .ite ((moves_report _).bind fun _ => moves_pure stmts) moves_noStatement

theorem block_succ (allowance : Nat) (place : Place) :
    block (allowance + 1) place = (do
      separator '\x7b' place
      let body ← statements (block allowance)
      closeBlock body) := rfl

theorem program_eq_close : program = statements (block nestingLimit) >>= closeProgram := rfl

end Parse

namespace Metered

/-- A rule that reads part of a program and may give up. One that fails stays at the token it failed
at. Its type does not tell how far it gets. -/
abbrev Rule := ExceptT SyntaxError (StateT ParseState Option)

namespace Rule

variable {α β : Type}

def giveUp : Rule α := fun _ => none

/-- A rule without a loop or a recursion needs no budget. -/
instance : MonadLift Parse Rule where
  monadLift p := fun s => some (p.outcome s)

/-- Reads an expression within the budget; one that cannot be read leaves the cursor where it
was. -/
def expression (budget : CallBudget) : Rule Expr := fun s =>
  match readExpr budget s.cursor with
  | none => none
  | some (.error e) => some (.error e, s)
  | some (.ok (operand, d)) =>
    some (.ok operand.expr,
      ⟨d, s.events.push (.expressionParsed s.cursor.index d.index operand.height)⟩)

/-- Reads items as long as the token at the cursor starts one; see `Parse.items`. Gives up after a
turn that has taken no token. -/
def items (item? : Token → Option (Rule α)) (s : ParseState) :
    Option (Except SyntaxError (List α) × ParseState) :=
  match item? s.cursor.peek with
  | none => some (.ok [], s)
  | some item =>
    match item { s with cursor := s.cursor.next } with
    | none => none
    | some (.error e, t) => some (.error e, t)
    | some (.ok a, t) =>
      if h : s.cursor.Before t.cursor then
        have := h.2
        match items item? t with
        | none => none
        | some (.error e, u) => some (.error e, u)
        | some (.ok as, u) => some (.ok (a :: as), u)
      else none
termination_by s.cursor.rest.length

def many (item? : Token → Option (Rule α)) : Rule (List α) := items item?

def commaList (item : Rule α) (place : Place) : Rule (List α) := do
  if (← Parse.peek).isSeparator ')' then
    Parse.skip
    return []
  else
    let first ← item
    let others ← many fun t => if t.isSeparator ',' then some item else none
    Parse.separator ')' place
    return first :: others

section Budget

variable (budget : CallBudget)

def binding (k : Keyword) : Rule (String × Expr) := do
  let x ← Parse.name (.afterKeyword k)
  Parse.equals .afterVariableName
  let e ← expression budget
  Parse.separator ';' (.afterStatement k)
  return (x, e)

def condition (k : Keyword) : Rule Expr := do
  Parse.separator '(' (.afterKeyword k)
  let e ← expression budget
  Parse.separator ')' (.afterCondition k)
  return e

/-- What follows the keyword of a statement. -/
def form? (block : Place → Rule (List Stmt)) : Keyword → Option (Rule Stmt)
  | .exit => some do
    Parse.separator '(' (.afterKeyword .exit)
    let e ← expression budget
    Parse.separator ')' .afterExitStatus
    Parse.separator ';' (.afterStatement .exit)
    return .exit e
  | .print => some do
    Parse.separator '(' (.afterKeyword .print)
    let t ← Parse.peek
    let stmt ← if t.kind = .str then do
        Parse.skip
        pure (Stmt.printText t.text)
      else Stmt.printValue <$> expression budget
    Parse.separator ')' .afterPrintArgument
    Parse.separator ';' (.afterStatement .print)
    return stmt
  | .declare => some do
    let (x, e) ← binding budget .declare
    return .declare x e
  | .assign => some do
    let (x, e) ← binding budget .assign
    return .assign x e
  | .branch => some do
    let e ← condition budget .branch
    let yes ← block (.afterCondition .branch)
    if (← Parse.peek).isKeyword .otherwise then
      Parse.skip
      let no ← block (.afterKeyword .otherwise)
      return .branch e yes (some no)
    else return .branch e yes none
  | .loop => some do
    let e ← condition budget .loop
    let body ← block (.afterCondition .loop)
    return .loop e body
  | .call => some do
    let f ← Parse.name (.afterKeyword .call)
    Parse.separator '(' .afterFunctionName
    let args ← commaList (expression budget) .afterCallArguments
    Parse.separator ';' (.afterStatement .call)
    return .call f args
  | .processor => some do
    let p ← Parse.name (.afterKeyword .processor)
    Parse.separator '(' .afterProcessorName
    let params ← commaList (liftM (Parse.name .inParameterList)) .afterParameterList
    let body ← block .afterParameterList
    return .processor p params body
  | .otherwise => none

def statements (block : Place → Rule (List Stmt)) : Rule (List Stmt) :=
  many fun t =>
    match t.kind with
    | .keyword k => (form? budget block k).map fun form => do
      let stmt ← form
      Parse.report (.statementParsed k)
      return stmt
    | _ => none

/-- The statements inside `depth` blocks, with what `close` takes behind them. Too many blocks are
an error. Each call of this rule takes one of the `calls` that are left. -/
def sequence : (calls depth : Nat) → (close : List Stmt → Parse (List Stmt)) → Rule (List Stmt)
  | 0, _, _ => giveUp
  | calls + 1, depth, close => do
    let stmts ← statements budget fun place => do
      Parse.separator '\x7b' place
      if nestingLimit ≤ depth then Parse.fail .blockTooDeep
      else sequence calls (depth + 1) Parse.closeBlock
    close stmts

/-- The statements up to the end of the input, read within the budget. -/
def program : Rule Program := sequence budget budget.sequence 0 Parse.closeProgram

end Budget

theorem run_bind (x : Rule α) (f : α → Rule β) (s : ParseState) :
    (x >>= f) s =
      match x s with
      | none => none
      | some (.error e, t) => some (.error e, t)
      | some (.ok a, t) => f a t := by
  change (x s).bind _ = _
  rcases x s with _ | ⟨_ | _, _⟩ <;> rfl

/-- The rule never gives up and does what `p` does. -/
structure Does (x : Rule α) (p : Parse α) : Prop where
  moves : p.Moves
  runs : ∀ s : ParseState, s.cursor.Proper → x s = some (p.outcome s)

theorem does_pure (a : α) : Does (pure a) (pure a) := ⟨Parse.moves_pure a, fun _ _ => rfl⟩

theorem does_lift {p : Parse α} (h : p.Moves) : Does (liftM p) p := ⟨h, fun _ _ => rfl⟩

theorem Does.bind {x : Rule α} {p : Parse α} {f : α → Rule β} {g : α → Parse β}
    (hx : Does x p) (hf : ∀ a, Does (f a) (g a)) : Does (x >>= f) (p >>= g) := by
  refine ⟨hx.moves.bind fun a => (hf a).moves, ?_⟩
  intro s hs
  obtain ⟨ls, hls⟩ := hx.moves s hs
  rw [run_bind, hx.runs s hs, Parse.outcome_bind]
  generalize p.outcome s = r at hls ⊢
  obtain ⟨e | a, t⟩ := r
  · rfl
  · exact (hf a).runs t (hs.of_spans hls)

theorem Does.ite {x y : Rule α} {p q : Parse α} {b : Prop} [Decidable b] (hx : Does x p)
    (hy : Does y q) : Does (if b then x else y) (if b then p else q) := by
  split
  · exact hx
  · exact hy

theorem does_peek : Does (liftM Parse.peek) Parse.peek := does_lift Parse.moves_peek

theorem does_skip : Does (liftM Parse.skip) Parse.skip := does_lift Parse.moves_skip

theorem does_separator (c : Char) (place : Place) :
    Does (liftM (Parse.separator c place)) (Parse.separator c place) :=
  does_lift (Parse.moves_separator c place)

theorem does_name (place : Place) : Does (liftM (Parse.name place)) (Parse.name place) :=
  does_lift (Parse.moves_name place)

/-- Every turn takes a token, the one that starts the item. The induction is on what is left to
read. -/
theorem does_many {item? : Token → Option (Rule α)} {item?' : Token → Option (Parse α)}
    (hitem : ∀ t, Option.Rel Does (item? t) (item?' t))
    (hstart : ∀ t p, item?' t = some p → t.kind ≠ .eof) :
    Does (many item?) (Parse.many item?') := by
  have hrun (s : ParseState) (hs : s.cursor.Proper) :
      (∃ ls, s.cursor.Spans ls ((Parse.many item?').outcome s).2.cursor) ∧
        items item? s = some ((Parse.many item?').outcome s) := by
    induction hn : s.cursor.rest.length using Nat.strongRecOn generalizing s with
    | ind n ih =>
      subst hn
      have hrel := hitem s.cursor.peek
      have hkind := hstart s.cursor.peek
      rw [items, Parse.outcome_many]
      generalize item? s.cursor.peek = x at hrel ⊢
      generalize item?' s.cursor.peek = y at hrel hkind ⊢
      cases hrel with
      | none => simpa using ⟨[], Cursor.Spans.refl s.cursor⟩
      | @some item p hdoes =>
        have hrest : s.cursor.rest ≠ [] := hs.rest_ne_nil (hkind p rfl)
        obtain ⟨l, ls, hl⟩ := List.exists_cons_of_ne_nil hrest
        obtain ⟨ms, hms⟩ := hdoes.moves ⟨s.cursor.next, s.events⟩ hs.next
        have htaken := (Cursor.spans_next hl).trans hms
        simp only [if_neg hrest, hdoes.runs ⟨s.cursor.next, s.events⟩ hs.next, Parse.outcome_bind]
        generalize p.outcome ⟨s.cursor.next, s.events⟩ = r at htaken ⊢
        obtain ⟨e | a, t⟩ := r
        · exact ⟨⟨_, htaken⟩, rfl⟩
        have hbefore : s.cursor.Before t.cursor := htaken.before (by simp)
        obtain ⟨⟨us, hus⟩, htail⟩ := ih _ hbefore.2 t (hs.of_spans htaken) rfl
        simp only [dif_pos hbefore, htail]
        generalize (Parse.many item?').outcome t = r' at hus ⊢
        obtain ⟨e | as, u⟩ := r'
        · exact ⟨⟨_, htaken.trans hus⟩, rfl⟩
        · exact ⟨⟨_, htaken.trans hus⟩, rfl⟩
  exact ⟨fun s hs => (hrun s hs).1, fun s hs => (hrun s hs).2⟩

theorem does_commaList {item : Rule α} {p : Parse α} (h : Does item p) (place : Place) :
    Does (commaList item place) (Parse.commaList p place) := by
  have hothers : Does (many fun t => if t.isSeparator ',' then some item else none)
      (Parse.many fun t => if t.isSeparator ',' then some p else none) := by
    refine does_many ?_ ?_
    · intro t
      split
      · exact .some h
      · exact .none
    · intro t p' hp hk
      simp [Token.isSeparator, hk] at hp
  refine does_peek.bind fun t => .ite (does_skip.bind fun _ => does_pure []) ?_
  exact h.bind fun first => hothers.bind fun others => (does_separator ')' place).bind fun _ =>
    does_pure (first :: others)

section Enough

variable {budget : CallBudget} (hprefixed : 512 ≤ budget.prefixed) (hclimb : 7 * 512 < budget.climb)

include hprefixed hclimb

theorem does_expression : Does (expression budget) Parse.expression := by
  constructor
  · intro s hs
    simp only [Parse.outcome, Parse.run, Parse.expression]
    cases hread : ImpAsm.readExpr s.cursor with
    | error e => exact ⟨[], .refl _⟩
    | ok x => exact spans_of_climb hs (by decide) hread
  · intro s hs
    rw [expression, follows_readExpr hprefixed hclimb s.cursor hs]
    simp only [Parse.outcome, Parse.run, Parse.expression]
    cases ImpAsm.readExpr s.cursor <;> rfl

theorem does_binding (k : Keyword) : Does (binding budget k) (Parse.binding k) :=
  (does_name _).bind fun x => (does_lift (Parse.moves_equals _)).bind fun _ =>
    (does_expression hprefixed hclimb).bind fun e => (does_separator ';' _).bind fun _ =>
      does_pure (x, e)

theorem does_condition (k : Keyword) : Does (condition budget k) (Parse.condition k) :=
  (does_separator '(' _).bind fun _ => (does_expression hprefixed hclimb).bind fun e =>
    (does_separator ')' _).bind fun _ => does_pure e

variable {block : Place → Rule (List Stmt)} {block' : Place → Parse (List Stmt)}
  (hblock : ∀ place, Does (block place) (block' place))

include hblock

theorem does_form? (k : Keyword) :
    Option.Rel Does (form? budget block k) (Parse.form? block' k) := by
  have hexpression := does_expression hprefixed hclimb
  cases k with
  | exit =>
    exact .some ((does_separator '(' _).bind fun _ => hexpression.bind fun e =>
      (does_separator ')' _).bind fun _ => (does_separator ';' _).bind fun _ =>
        does_pure (Stmt.exit e))
  | print =>
    -- a text and a value are followed by the same separators
    have hend (stmt : Stmt) := (does_separator ')' .afterPrintArgument).bind fun _ =>
      (does_separator ';' (.afterStatement .print)).bind fun _ => does_pure stmt
    refine .some ((does_separator '(' _).bind fun _ => does_peek.bind fun t => .ite ?_ ?_)
    · exact does_skip.bind fun _ => (does_pure (Stmt.printText t.text)).bind hend
    · exact (hexpression.bind fun e => does_pure (Stmt.printValue e)).bind hend
  | declare =>
    exact .some
      ((does_binding hprefixed hclimb .declare).bind fun b => does_pure (Stmt.declare b.1 b.2))
  | assign =>
    exact .some
      ((does_binding hprefixed hclimb .assign).bind fun b => does_pure (Stmt.assign b.1 b.2))
  | branch =>
    refine .some ((does_condition hprefixed hclimb .branch).bind fun e => (hblock _).bind fun yes =>
      does_peek.bind fun t => .ite ?_ (does_pure (Stmt.branch e yes none)))
    exact does_skip.bind fun _ => (hblock _).bind fun no => does_pure (Stmt.branch e yes (some no))
  | loop =>
    exact .some ((does_condition hprefixed hclimb .loop).bind fun e => (hblock _).bind fun body =>
      does_pure (Stmt.loop e body))
  | call =>
    exact .some ((does_name _).bind fun f => (does_separator '(' _).bind fun _ =>
      (does_commaList hexpression _).bind fun args => (does_separator ';' _).bind fun _ =>
        does_pure (Stmt.call f args))
  | processor =>
    exact .some ((does_name _).bind fun p => (does_separator '(' _).bind fun _ =>
      (does_commaList (does_name _) _).bind fun params => (hblock _).bind fun body =>
        does_pure (Stmt.processor p params body))
  | otherwise => exact .none

theorem does_statements : Does (statements budget block) (Parse.statements block') := by
  refine does_many ?_ ?_
  · intro t
    cases t.kind with
    | keyword k =>
      have hform := does_form? hprefixed hclimb hblock k
      dsimp only
      generalize form? budget block k = x at hform ⊢
      generalize Parse.form? block' k = p at hform ⊢
      cases hform with
      | none => exact .none
      | some hform =>
        exact .some (hform.bind fun stmt => (does_lift (Parse.moves_report _)).bind fun _ =>
          does_pure stmt)
    | _ => exact .none
  · intro t p hp hk
    simp [hk] at hp

end Enough

/-- The call for a block is one more open block, of which there are at most 512; one call is outside
all blocks. -/
theorem does_sequence {budget : CallBudget} (hprefixed : 512 ≤ budget.prefixed)
    (hclimb : 7 * 512 < budget.climb) {calls depth : Nat} (hcalls : nestingLimit - depth < calls)
    {close : List Stmt → Parse (List Stmt)} (hclose : ∀ stmts, (close stmts).Moves) :
    Does (sequence budget calls depth close)
      (Parse.statements (Parse.block (nestingLimit - depth)) >>= close) := by
  induction calls generalizing depth close with
  | zero => omega
  | succ calls ih =>
    refine (does_statements hprefixed hclimb ?_).bind fun stmts => does_lift (hclose stmts)
    intro place
    by_cases hdepth : nestingLimit ≤ depth
    · simp only [if_pos hdepth, Nat.sub_eq_zero_of_le hdepth]
      exact (does_separator _ place).bind fun _ => does_lift (Parse.moves_fail _)
    · have hallowance : nestingLimit - depth = nestingLimit - (depth + 1) + 1 := by omega
      simp only [if_neg hdepth]
      rw [hallowance, Parse.block_succ]
      exact (does_separator _ place).bind fun _ => ih (by omega) Parse.moves_closeBlock

/-- With 513 calls of `sequence` no program is given up. -/
theorem does_program {budget : CallBudget} (hprefixed : 512 ≤ budget.prefixed)
    (hclimb : 7 * 512 < budget.climb) (hsequence : 513 ≤ budget.sequence) :
    Does (program budget) Parse.program := by
  rw [Parse.program_eq_close]
  exact does_sequence hprefixed hclimb hsequence Parse.moves_closeProgram

end Rule

end Metered

/-- Reads one expression from token number `start` on, unless the budget is spent. -/
def parseExprWithin (budget : CallBudget) (tokens : List Token) (start : Nat) :
    Option (Except SyntaxError (Expr × Nat)) :=
  match Metered.readExpr budget (.ofTokens tokens start) with
  | none => none
  | some (.error e) => some (.error e)
  | some (.ok (operand, d)) => some (.ok (operand.expr, d.index))

/-- Reads the statements from `c` on, and tells where reading stopped, unless the budget is
spent. -/
def parseFromWithin (budget : CallBudget) (c : Cursor) : Option (Traced Program × Cursor) :=
  match Metered.Rule.program budget ⟨c, #[]⟩ with
  | none => none
  | some (.error e, s) => some (⟨s.events.toList, .error (.syntactic e)⟩, s.cursor)
  | some (.ok p, s) => some (⟨s.events.toList, .ok p⟩, s.cursor)

section Enough

variable {budget : CallBudget} (hprefixed : 512 ≤ budget.prefixed) (hclimb : 7 * 512 < budget.climb)

include hprefixed hclimb

theorem parseExprWithin_eq (ts : List Token) (start : Nat) :
    parseExprWithin budget ts start = some (parseExpr ts start) := by
  unfold parseExprWithin parseExpr
  rw [Metered.follows_readExpr hprefixed hclimb _ (Cursor.ofTokens_proper ts start)]
  cases readExpr (.ofTokens ts start) <;> rfl

theorem parseFromWithin_eq (hsequence : 513 ≤ budget.sequence) {c : Cursor} (hc : c.Proper) :
    parseFromWithin budget c = some (parseFrom c) := by
  have hprogram := Metered.Rule.does_program hprefixed hclimb hsequence
  unfold parseFromWithin parseFrom
  rw [hprogram.runs ⟨c, #[]⟩ hc, Parse.outcome]
  cases Parse.program.run ⟨c, #[]⟩ <;> rfl

end Enough

/-- However many tokens there are and wherever reading starts, the calls that are active at once are
bounded: 512 for operands with their unary operators, 7 * 513 for operands with operators between
them, 513 for statements one after the other. Readers that give up where a bound would be exceeded,
where the least power would not grow or would pass 7, or where a turn of a loop has taken no token,
never give up: they end as the readers without these checks do, with the same result, reports and
place. -/
theorem parse_within_budget (ts : List Token) (start : Nat) :
    let budget : CallBudget := { prefixed := 512, climb := 7 * 513, sequence := 513 }
    parseExprWithin budget ts start = some (parseExpr ts start) ∧
      parseFromWithin budget (.ofTokens ts start) = some (parseFrom (.ofTokens ts start)) := by
  intro budget
  have hprefixed : 512 ≤ budget.prefixed := Nat.le_refl 512
  have hclimb : 7 * 512 < budget.climb := by decide
  exact ⟨parseExprWithin_eq hprefixed hclimb ts start,
    parseFromWithin_eq hprefixed hclimb (Nat.le_refl 513) (Cursor.ofTokens_proper ts start)⟩

end ImpAsm
