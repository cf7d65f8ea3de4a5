import ImpAsm.Proofs.Expr.Climbing

namespace ImpAsm

namespace Cursor

variable {c d : Cursor} {ls : List Lexeme}

/-- From `c` to `d` at least one token is taken, so that less is left. -/
def Before (c d : Cursor) : Prop := c.index < d.index ∧ d.rest.length < c.rest.length

instance (c d : Cursor) : Decidable (c.Before d) := inferInstanceAs (Decidable (_ ∧ _))

/-- A lexeme is made of at least one token. -/
theorem Spans.before (h : c.Spans ls d) (hls : ls ≠ []) : c.Before d := by
  obtain ⟨l, ms, rfl⟩ := List.exists_cons_of_ne_nil hls
  have hwidth : 0 < l.width := by
    rw [← Lexeme.length_tokens]
    exact List.length_pos_of_ne_nil (List.cons_ne_nil _ _)
  refine ⟨?_, h.length_lt hls⟩
  rw [h.index, totalWidth_cons]
  omega

theorem exists_spans_next (c : Cursor) : ∃ ls, c.Spans ls c.next := by
  cases hrest : c.rest with
  | nil => exact ⟨[], spans_nil.mpr (by simp [next, hrest])⟩
  | cons l ls => exact ⟨[l], spans_next hrest⟩

theorem Proper.next (hc : c.Proper) : c.next.Proper := by
  obtain ⟨ls, hsp⟩ := c.exists_spans_next
  exact hc.of_spans hsp

end Cursor

/-- How many calls of each recursive rule may be active at once: of the rule for an operand with its
unary operators, of the rule for operands with operators between them, and of the rule for
statements one after the other. -/
structure CallBudget where
  prefixed : Nat
  climb : Nat
  sequence : Nat

namespace Metered

/-- A reading that may be given up: then it has no outcome at all, not even an error. -/
abbrev Attempt := ExceptT SyntaxError Option

def giveUp {α : Type} : Attempt α := ExceptT.mk none

/-- Gives up unless `p` holds. -/
def ensure (p : Prop) [Decidable p] : Attempt Unit := if p then pure () else giveUp

/-- A rule that reads an operand and may give up. Its type does not tell how far it gets. -/
abbrev Reader := Cursor → Attempt (Operand × Cursor)

open Operand (leaf node binOp?)

/-- Extends `left` by every operator at `c` that binds with at least the power `least`. Gives up
before a call for a right operand that would not ask for tighter operators than this one does, or
for tighter ones than there are; and gives up after a turn that has taken no token. -/
def extend (climb : Nat → Reader) (least : Nat) (left : Operand) (c : Cursor) :
    Attempt (Operand × Cursor) :=
  match binOp? c with
  | none => pure (left, c)
  | some op =>
    if op.power < least then pure (left, c)
    else do
      ensure (least < op.power + 1 ∧ op.power + 1 ≤ 7)
      let (right, d) ← climb (op.power + 1) c.next
      let whole ← node d (.binary op left.expr right.expr) (max left.height right.height + 1)
      if h : c.Before d then
        have := h.2
        extend climb least whole d
      else giveUp
termination_by c.rest.length

/-- The integer at the cursor; see `Operand.integer`. -/
def integer (sign : String) : Reader := fun c =>
  match readWord? (sign ++ c.peek.text).toList with
  | none => throw (c.error .literalOutOfRange)
  | some w => pure (leaf (.num w), c.next)

/-- The expression in parentheses at the cursor; see `Operand.parenthesized`. -/
def parenthesized (inner : Reader) : Reader := fun c => do
  let (operand, d) ← inner c.next
  if d.peek.isSeparator ')' then pure (operand, d.next)
  else throw (d.error (.expected ')' .closingParenthesis))

/-- An operand without an operator; see `Operand.primary`. -/
def primary (inner : Reader) : Reader := fun c =>
  match c.peek.kind with
  | .int => integer "" c
  | .bool => pure (leaf (.bool (c.peek.text == "true")), c.next)
  | .ident => pure (leaf (.ident c.peek.text), c.next)
  | _ =>
    if c.peek.isSeparator '(' then parenthesized inner c
    else throw (c.error .expectedExpression)

/-- The unary operator at the cursor with its operand; see `Operand.applied`. -/
def applied (op : UnOp) (operand : Reader) : Reader := fun c => do
  let (inner, d) ← operand c.next
  let whole ← node d (.unary op inner.expr) (inner.height + 1)
  pure (whole, d)

/-- An operand with its unary operators, whose own operand is read by `operand` and whose
parentheses hold what `inner` reads. -/
def prefixed (operand inner : Reader) : Reader := fun c =>
  if c.operator? = some "-" then
    if c.next.peek.kind = .int then integer "-" c.next else applied .neg operand c
  else if c.operator? = some "!" then applied .not operand c
  else primary inner c

/-- An operand inside `depth` unary operators and parentheses, too many of which are an error. A
call of `prefixed` takes one of the `calls` that are left. -/
def unary (climb : (calls depth least : Nat) → Reader) (calls depth : Nat) : Reader := fun c =>
  if nestingLimit ≤ depth then throw (c.error .expressionTooDeep)
  else
    match calls with
    | 0 => giveUp
    | calls + 1 => prefixed (unary climb calls (depth + 1)) (climb calls (depth + 1) 1) c

/-- An operand followed by every operator that binds with at least the power `least`. A call takes
one of the `climbs` that are left. -/
def climb (climbs calls depth least : Nat) : Reader := fun c =>
  match climbs with
  | 0 => giveUp
  | climbs + 1 => do
    let (left, d) ← unary (climb climbs) calls depth c
    extend (climb climbs calls depth) least left d

/-- Reads one expression within the budget. -/
def readExpr (budget : CallBudget) : Reader := climb budget.climb budget.prefixed 0 1

/-- The outcome of a reading, without what its type says about where it stops. -/
def outcome {P : Cursor → Prop} (x : Except SyntaxError (Operand × Subtype P)) :
    Attempt (Operand × Cursor) :=
  liftM (x.map fun (o, d) => (o, d.1))

/-- The rule never gives up and does what `r` does. -/
def Follows (m : Reader) (r : ImpAsm.Reader) : Prop := ∀ c, c.Proper → m c = outcome (r c)

section Attempts

variable {α : Type} {P : Cursor → Prop}

@[simp] theorem lift_ok (a : α) :
    (liftM (Except.ok a : Except SyntaxError α) : Attempt α) = pure a := rfl

@[simp] theorem lift_error (e : SyntaxError) :
    (liftM (Except.error e : Except SyntaxError α) : Attempt α) = throw e := rfl

@[simp] theorem outcome_ok (o : Operand) (d : Subtype P) : outcome (.ok (o, d)) = pure (o, d.1) :=
  rfl

@[simp] theorem outcome_error (e : SyntaxError) : outcome (P := P) (.error e) = throw e := rfl

end Attempts

variable {r : ImpAsm.Reader} {m m' : Reader} {c : Cursor} {least : Nat} {left : Operand}

theorem outcome_climb :
    outcome (Operand.climb r least c) = (do
      let (left, d) ← outcome (r c)
      outcome (Operand.extend r least left d)) := by
  unfold Operand.climb
  cases r c with
  | error e => simp
  | ok x =>
    obtain ⟨left, d⟩ := x
    simp only [outcome_ok, pure_bind]
    cases Operand.extend r least left d <;> rfl

/-- One turn of the loop: a right operand of tighter operators, and on with the whole. -/
theorem outcome_extend {op : BinOp} (hop : binOp? c = some op) (hle : least ≤ op.power) :
    outcome (Operand.extend r least left c) = (do
      let (right, d) ← outcome (Operand.climb r (op.power + 1) c.next)
      let whole ← node d (.binary op left.expr right.expr) (max left.height right.height + 1)
      outcome (Operand.extend r least whole d)) := by
  rw [Operand.extend, outcome_climb]
  simp only [hop, Nat.not_lt.mpr hle, if_false]
  cases r c.next with
  | error e => simp
  | ok x =>
    obtain ⟨first, d⟩ := x
    simp only [outcome_ok, pure_bind]
    cases Operand.extend r (op.power + 1) first d with
    | error e => simp
    | ok y =>
      obtain ⟨right, d'⟩ := y
      simp only [outcome_ok, pure_bind]
      cases node d' (.binary op left.expr right.expr) (max left.height right.height + 1) with
      | error e => simp
      | ok whole =>
        simp only [lift_ok, pure_bind]
        cases Operand.extend r least whole d' <;> rfl

theorem outcome_applied {op : UnOp} :
    outcome (Operand.applied op r c) = (do
      let (inner, d) ← outcome (r c.next)
      let whole ← node d (.unary op inner.expr) (inner.height + 1)
      pure (whole, d)) := by
  unfold Operand.applied
  cases r c.next with
  | error e => simp
  | ok x =>
    obtain ⟨inner, d⟩ := x
    simp only [outcome_ok, pure_bind]
    cases node d (.unary op inner.expr) (inner.height + 1) <;> simp [Cursor.afterNext]

theorem outcome_parenthesized :
    outcome (Operand.parenthesized r c) = (do
      let (operand, d) ← outcome (r c.next)
      if d.peek.isSeparator ')' then pure (operand, d.next)
      else throw (d.error (.expected ')' .closingParenthesis))) := by
  unfold Operand.parenthesized
  cases r c.next with
  | error e => simp
  | ok x =>
    obtain ⟨operand, d⟩ := x
    simp only [outcome_ok, pure_bind]
    split <;> simp [Cursor.afterNext]

theorem outcome_integer (sign : String) (h : c.rest ≠ []) :
    outcome (Operand.integer sign c h) = integer sign c := by
  unfold Operand.integer integer
  cases readWord? (sign ++ c.peek.text).toList <;> simp [Cursor.following]

theorem Follows.applied (h : Follows m r) (op : UnOp) :
    Follows (applied op m) (Operand.applied op r) := by
  intro c hc
  rw [outcome_applied, ← h c.next hc.next, Metered.applied]

theorem Follows.parenthesized (h : Follows m r) :
    Follows (parenthesized m) (Operand.parenthesized r) := by
  intro c hc
  rw [outcome_parenthesized, ← h c.next hc.next, Metered.parenthesized]

theorem Follows.primary (h : Follows m r) : Follows (primary m) (Operand.primary r) := by
  intro c hc
  unfold Metered.primary Operand.primary
  by_cases hrest : c.rest = []
  · -- past the end there is an end of the input, which starts no operand
    have hk : c.peek.kind = .eof := by simp [Cursor.peek, hrest, hc.ending]
    have hsep : c.peek.isSeparator '(' = false := by simp [Token.isSeparator, hk]
    simp [hrest, hk, hsep]
  · simp only [dif_neg hrest]
    cases c.peek.kind with
    | int => exact (outcome_integer "" hrest).symm
    | bool => rfl
    | ident => rfl
    | _ =>
      dsimp only
      split
      · exact h.parenthesized c hc
      · rfl

/-- An operand with its unary operators uses up one level of the allowance. -/
theorem Follows.prefixed {allowance : Nat} (hoperand : Follows m (Operand.unary allowance))
    (hinner : Follows m' (Operand.climb (Operand.unary allowance) 1)) :
    Follows (prefixed m m') (Operand.unary (allowance + 1)) := by
  intro c hc
  unfold Metered.prefixed Operand.unary
  split
  · by_cases hk : c.next.peek.kind = .int
    · have hrest : c.next.rest ≠ [] := hc.next.rest_ne_nil (by simp [hk])
      have hint : c.next.rest ≠ [] ∧ c.next.peek.kind = .int := ⟨hrest, hk⟩
      rw [if_pos hk, Operand.negated, dif_pos hint, ← outcome_integer "-" hrest]
      cases Operand.integer "-" c.next hrest <;> rfl
    · rw [if_neg hk, Operand.negated, dif_neg fun hint => hk hint.2]
      exact hoperand.applied .neg c hc
  split
  · exact hoperand.applied .not c hc
  · exact hinner.primary c hc

/-- What reading an expression takes lies between two places. -/
theorem spans_of_climb {allowance k : Nat} {o : Operand} {d : c.Beyond} (hc : c.Proper) (hk : k ≤ 7)
    (h : Operand.climb (Operand.unary allowance) k c = .ok (o, d)) : ∃ ls, c.Spans ls d.1 := by
  obtain ⟨⟨ls, _, hsp, _⟩, _⟩ :=
    Operand.climb_sound (fun _ _ _ hc h => Operand.unary_sound allowance hc h) hc hk ⟨d.2, h⟩
  exact ⟨ls, hsp⟩

/-- Every turn takes a token, since the operator is one. The induction is on what is left to
read. -/
theorem extend_eq_outcome {allowance : Nat} {climb : Nat → Reader}
    (hclimb : ∀ k, least < k → k ≤ 7 →
      Follows (climb k) (Operand.climb (Operand.unary allowance) k))
    (left : Operand) (hc : c.Proper) :
    extend climb least left c =
      outcome (Operand.extend (Operand.unary allowance) least left c) := by
  obtain ⟨n, hn⟩ : ∃ n, c.rest.length = n := ⟨_, rfl⟩
  induction n using Nat.strongRecOn generalizing c left with
  | ind n ih =>
    subst hn
    by_cases hstop : Operand.Stops least c
    · rw [extend, Operand.extend]
      cases hop : binOp? c with
      | none => rfl
      | some op => simp [hstop op hop]
    obtain ⟨op, hop, hle⟩ : ∃ op, binOp? c = some op ∧ least ≤ op.power := by
      simpa [Operand.Stops] using hstop
    have hgrows : least < op.power + 1 ∧ op.power + 1 ≤ 7 :=
      ⟨Nat.lt_succ_of_le hle, Nat.succ_le_succ op.power_range.2⟩
    rw [extend, outcome_extend hop hle]
    simp only [hop, Nat.not_lt.mpr hle, if_false, ensure, if_pos hgrows, pure_bind,
      hclimb _ hgrows.1 hgrows.2 c.next hc.next]
    cases hright : Operand.climb (Operand.unary allowance) (op.power + 1) c.next with
    | error e => simp
    | ok x =>
      obtain ⟨right, d⟩ := x
      obtain ⟨ls, hsp⟩ := spans_of_climb hc.next hgrows.2 hright
      obtain ⟨l, hl, _⟩ := Operand.head?_of_binOp? hop
      have hbefore : c.Before d.1 :=
        (Cursor.spans_cons.mpr ⟨hl, hsp⟩).before (List.cons_ne_nil l ls)
      simp only [outcome_ok, pure_bind, dif_pos hbefore]
      cases node d.1 (.binary op left.expr right.expr) (max left.height right.height + 1) with
      | error e => simp
      | ok whole =>
        simp only [lift_ok, pure_bind]
        exact ih _ hbefore.2 whole (hc.next.of_spans hsp) rfl

theorem follows_unary_of_le {climb : (calls depth least : Nat) → Reader} {calls depth : Nat}
    (h : nestingLimit ≤ depth) :
    Follows (unary climb calls depth) (Operand.unary (nestingLimit - depth)) := by
  intro c _
  unfold unary
  rw [Nat.sub_eq_zero_of_le h, if_pos h]
  rfl

/-- A call of `prefixed` is inside one operator or parenthesis more than the one around it, so there
is a call left as long as the limit on them is not reached. -/
theorem follows_unary {climb : (calls depth least : Nat) → Reader} {calls depth : Nat}
    (hclimb : ∀ calls depth', depth < depth' → depth' ≤ nestingLimit →
      nestingLimit - depth' ≤ calls →
      Follows (climb calls depth' 1) (Operand.climb (Operand.unary (nestingLimit - depth')) 1))
    (hcalls : nestingLimit - depth ≤ calls) :
    Follows (unary climb calls depth) (Operand.unary (nestingLimit - depth)) := by
  induction calls generalizing depth with
  | zero => exact follows_unary_of_le (Nat.le_of_sub_eq_zero (Nat.le_zero.mp hcalls))
  | succ calls ih =>
    by_cases hdepth : nestingLimit ≤ depth
    · exact follows_unary_of_le hdepth
    have hallowance : nestingLimit - depth = nestingLimit - (depth + 1) + 1 := by omega
    have hless : nestingLimit - (depth + 1) ≤ calls := by omega
    have hinner := hclimb calls (depth + 1) (Nat.lt_succ_self depth) (Nat.lt_of_not_le hdepth) hless
    have hoperand :=
      ih (fun calls' depth' hlt => hclimb calls' depth' (Nat.lt_of_succ_lt hlt)) hless
    intro c hc
    rw [hallowance, unary, if_neg hdepth]
    exact hoperand.prefixed hinner c hc

/-- Between two calls of `prefixed` the least power grows from 1 to at most 7. So there is a call of
`climb` left if there are seven for every operator or parenthesis that may still be opened, less
those for the powers below `least`, and one that finds the limit reached. -/
theorem follows_climb {climbs calls depth : Nat} (hone : 1 ≤ least) (hseven : least ≤ 7)
    (hcalls : nestingLimit - depth ≤ calls) (hclimbs : 0 < climbs)
    (hpowers : 7 * (nestingLimit - depth) + 2 ≤ climbs + least) :
    Follows (climb climbs calls depth least)
      (Operand.climb (Operand.unary (nestingLimit - depth)) least) := by
  induction climbs generalizing calls depth least with
  | zero => omega
  | succ climbs ih =>
    have hunary : Follows (unary (climb climbs) calls depth)
        (Operand.unary (nestingLimit - depth)) := by
      -- inside one more operator or parenthesis the powers start again at 1
      refine follows_unary ?_ hcalls
      intro calls' depth' hlt hle hcalls'
      exact ih (Nat.le_refl 1) (by decide) hcalls' (by omega) (by omega)
    intro c hc
    rw [climb, outcome_climb, hunary c hc]
    cases hfirst : Operand.unary (nestingLimit - depth) c with
    | error e => simp
    | ok x =>
      obtain ⟨left, d⟩ := x
      obtain ⟨ls, n, hsp, _, hn, _⟩ := Operand.unary_sound _ hc ⟨d.2, hfirst⟩
      simp only [outcome_ok, pure_bind]
      refine extend_eq_outcome ?_ left (hc.of_spans hsp)
      intro k hk hk7
      exact ih (Nat.le_trans hone (Nat.le_of_lt hk)) hk7 hcalls (by omega) (by omega)

/-- With 512 calls of `prefixed` and more than 7 * 512 calls of `climb` no expression is given
up. -/
theorem follows_readExpr {budget : CallBudget} (hprefixed : 512 ≤ budget.prefixed)
    (hclimb : 7 * 512 < budget.climb) : Follows (readExpr budget) ImpAsm.readExpr :=
  follows_climb (Nat.le_refl 1) (by decide) hprefixed (Nat.zero_lt_of_lt hclimb)
    (Nat.succ_le_succ hclimb)

end Metered

end ImpAsm
