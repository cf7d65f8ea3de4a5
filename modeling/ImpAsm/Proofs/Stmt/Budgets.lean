import ImpAsm.Proofs.Stmt.CallDepth
import ImpAsm.Proofs.Stmt.FirstFault

namespace ImpAsm

open Lexeme (made)
open Operand (leaf binOp?)

namespace Parse

variable {s : ParseState}

/-- A separator that is there is taken, and so is a name. -/
theorem outcome_separator {c : Char} (place : Place) (h : s.cursor.peek.isSeparator c) :
    (separator c place).outcome s = (.ok (), ⟨s.cursor.next, s.events⟩) := by
  rw [separator, outcome_bind]
  exact congrArg (outcome · s) (if_pos h)

theorem outcome_name (place : Place) (h : s.cursor.peek.kind = .ident) :
    (name place).outcome s = (.ok s.cursor.peek.text, ⟨s.cursor.next, s.events⟩) := by
  rw [name, outcome_bind]
  exact congrArg (outcome · s) (if_pos h)

end Parse

namespace Metered

variable {calls climbs depth index least : Nat} {ending : Token} {ls : List Lexeme}

/-- What follows something that is given up is not reached. -/
theorem giveUp_of_first {α β : Type} {x : Attempt α} (h : x = giveUp) (f : α → Attempt β) :
    x >>= f = giveUp := by
  rw [h]
  rfl

theorem unary_zero {climb : (calls depth least : Nat) → Reader} (h : depth < nestingLimit)
    (c : Cursor) : unary climb 0 depth c = giveUp := by
  rw [unary, if_neg (Nat.not_le.mpr h)]

/-- One unary operator after the other takes one call of `prefixed` after the other. -/
theorem unary_spent {climb : (calls depth least : Nat) → Reader}
    (h : depth + calls < nestingLimit) :
    unary climb calls depth ⟨index, .replicate calls (made .operator "!"), ending⟩ = giveUp := by
  induction calls generalizing depth index with
  | zero => exact unary_zero h _
  | succ calls ih =>
    have hinner : unary climb calls (depth + 1)
        ⟨index + 1, .replicate calls (made .operator "!"), ending⟩ = giveUp := ih (by omega)
    rw [unary, if_neg (by omega)]
    exact giveUp_of_first hinner _

/-- A right operand of tighter operators takes another call of `climb`. -/
theorem climb_spent_operator {op : BinOp} (hdepth : depth < nestingLimit)
    (h : climb climbs calls depth (op.power + 1) ⟨index + 1 + 1, ls, ending⟩ = giveUp) :
    climb (climbs + 1) calls depth op.power
      ⟨index, made .ident "x" :: made .operator op.symbol :: ls, ending⟩ = giveUp := by
  let behind : Cursor := ⟨index + 1, made .operator op.symbol :: ls, ending⟩
  have hop : binOp? behind = some op := op.ofSymbol?_symbol
  have hgrows : op.power < op.power + 1 ∧ op.power + 1 ≤ 7 :=
    ⟨Nat.lt_succ_self _, Nat.succ_le_succ op.power_range.2⟩
  have hextend (left : Operand) :
      extend (climb climbs calls depth) op.power left behind = giveUp := by
    rw [extend]
    simp only [hop, Nat.lt_irrefl, if_false, ensure, if_pos hgrows, pure_bind]
    exact giveUp_of_first h _
  rw [climb]
  cases calls with
  | zero => exact giveUp_of_first (unary_zero hdepth _) _
  | succ calls =>
    have hleft : unary (climb climbs) (calls + 1) depth
        ⟨index, made .ident "x" :: made .operator op.symbol :: ls, ending⟩ =
          pure (leaf (.ident "x"), behind) := by
      rw [unary, if_neg (Nat.not_le.mpr hdepth)]
      rfl
    rw [hleft, pure_bind]
    exact hextend _

/-- So does an expression in parentheses, one level further in. -/
theorem climb_spent_opening (hdepth : depth < nestingLimit)
    (h : ∀ calls, climb climbs calls (depth + 1) 1 ⟨index + 1, ls, ending⟩ = giveUp) :
    climb (climbs + 1) calls depth least ⟨index, made .separator "(" :: ls, ending⟩ = giveUp := by
  rw [climb]
  apply giveUp_of_first
  cases calls with
  | zero => exact unary_zero hdepth _
  | succ calls =>
    have hopen : (made .separator "(").token.isSeparator '(' := by decide
    rw [unary, if_neg (Nat.not_le.mpr hdepth)]
    exact (if_pos hopen).trans (giveUp_of_first (h calls) _)

theorem exists_power (h₁ : 1 ≤ least) (h₂ : least < 7) : ∃ op : BinOp, op.power = least := by
  interval_cases least
  · exact ⟨.or, rfl⟩
  · exact ⟨.and, rfl⟩
  · exact ⟨.eq, rfl⟩
  · exact ⟨.lt, rfl⟩
  · exact ⟨.add, rfl⟩
  · exact ⟨.mul, rfl⟩

/-- As many calls of `climb` as there are below the bound can be active at once: one for each power,
and then one parenthesis further in again. -/
theorem exists_climb_spent (climbs : Nat) (h₁ : 1 ≤ least) (h₇ : least ≤ 7) :
    ∃ ls : List Lexeme, (∀ l ∈ ls, l.Loose) ∧ ∀ calls depth index ending,
      climbs + least < 7 * (nestingLimit - depth) + 2 →
        climb climbs calls depth least ⟨index, ls, ending⟩ = giveUp := by
  induction climbs generalizing least with
  | zero =>
    refine ⟨[], by simp, ?_⟩
    intro calls depth index ending _
    rw [climb]
  | succ climbs ih =>
    by_cases hlt : least < 7
    · obtain ⟨op, rfl⟩ := exists_power h₁ hlt
      obtain ⟨ls, hloose, hspent⟩ := @ih (op.power + 1) (by omega) (by omega)
      refine ⟨made .ident "x" :: made .operator op.symbol :: ls, ?_, ?_⟩
      · simpa [Lexeme.loose_made] using hloose
      · intro calls depth index ending h
        exact climb_spent_operator (by omega) (hspent calls depth _ ending (by omega))
    · obtain ⟨ls, hloose, hspent⟩ := @ih 1 (by omega) (by omega)
      refine ⟨made .separator "(" :: ls, ?_, ?_⟩
      · simpa [Lexeme.loose_made] using hloose
      · intro calls depth index ending h
        refine climb_spent_opening (by omega) ?_
        intro calls
        exact hspent calls (depth + 1) _ ending (by omega)

theorem exists_readExpr_spent {budget : CallBudget}
    (h : budget.prefixed < 512 ∨ budget.climb ≤ 7 * 512) :
    ∃ ls : List Lexeme, (∀ l ∈ ls, l.Loose) ∧
      ∀ index ending, readExpr budget ⟨index, ls, ending⟩ = giveUp := by
  rcases h with h | h
  · refine ⟨.replicate budget.prefixed (made .operator "!"), ?_, ?_⟩
    · intro l hl
      rw [List.eq_of_mem_replicate hl]
      exact Lexeme.loose_made _ _
    · intro index ending
      unfold readExpr
      cases budget.climb with
      | zero => rw [climb]
      | succ climbs =>
        rw [climb]
        exact giveUp_of_first (unary_spent ((Nat.zero_add _).trans_lt h)) _
  · obtain ⟨ls, hloose, hspent⟩ := @exists_climb_spent 1 budget.climb (by omega) (by omega)
    refine ⟨ls, hloose, ?_⟩
    intro index ending
    exact hspent _ 0 index ending (Nat.succ_lt_succ (Nat.lt_succ_of_le h))

namespace Rule

variable {budget : CallBudget} {block : Place → Rule (List Stmt)} {s : ParseState}
  {close : List Stmt → Parse (List Stmt)}

theorem spent_first {α β : Type} {x : Rule α} (h : x s = none) (f : α → Rule β) :
    (x >>= f) s = none := by
  rw [run_bind, h]

/-- What follows something that ends well is reached. -/
theorem spent_behind {α β : Type} {x : Rule α} {f : α → Rule β} {a : α} {t : ParseState}
    (hx : x s = some (.ok a, t)) (h : f a t = none) : (x >>= f) s = none := by
  rw [run_bind, hx]
  exact h

/-- A statement that is given up takes the whole sequence with it. -/
theorem statements_spent {k : Keyword} {form : Rule Stmt} (hk : s.cursor.peek.kind = .keyword k)
    (hform : form? budget block k = some form)
    (h : form { s with cursor := s.cursor.next } = none) : statements budget block s = none := by
  have hturn : (do
      let stmt ← form
      Parse.report (.statementParsed k)
      return stmt : Rule Stmt) { s with cursor := s.cursor.next } = none := spent_first h _
  unfold statements many
  rw [items]
  simp only [hk, hform, Option.map_some, hturn]

/-- A list of nothing is taken with the parenthesis that closes it. -/
theorem run_commaList_nil {α : Type} {item : Rule α} (place : Place)
    (h : s.cursor.peek.isSeparator ')') :
    commaList item place s = some (.ok [], ⟨s.cursor.next, s.events⟩) := by
  rw [commaList, run_bind]
  exact congrArg (fun x : Rule (List α) => x s) (if_pos h)

/-- The lexemes that open a processor, with the brace of its block. -/
def opening : List Lexeme :=
  [made (.keyword .processor) "processor", made .ident "p", made .separator "(",
    made .separator ")", made .separator "\x7b"]

theorem processor_spent {events : Array Event}
    (h : block .afterParameterList
      ⟨⟨index + 4, made .separator "\x7b" :: ls, ending⟩, events⟩ = none) :
    statements budget block ⟨⟨index, opening ++ ls, ending⟩, events⟩ = none := by
  have hopen : (made .separator "(").token.isSeparator '(' := by decide
  have hclose : (made .separator ")").token.isSeparator ')' := by decide
  refine statements_spent rfl rfl ?_
  refine spent_behind (congrArg some (Parse.outcome_name _ rfl)) ?_
  refine spent_behind (congrArg some (Parse.outcome_separator _ hopen)) ?_
  refine spent_behind (run_commaList_nil _ hclose) ?_
  exact spent_first h _

/-- One block inside the other takes one call of `sequence` after the other. -/
theorem sequence_spent {events : Array Event} (h : depth + calls ≤ nestingLimit) :
    sequence budget calls depth close
      ⟨⟨index, (List.replicate calls opening).flatten, ending⟩, events⟩ = none := by
  induction calls generalizing depth index close with
  | zero => rfl
  | succ calls ih =>
    have hbrace : (made .separator "\x7b").token.isSeparator '\x7b' := by decide
    have hdepth : ¬ nestingLimit ≤ depth := by omega
    rw [sequence, List.replicate_succ, List.flatten_cons]
    refine spent_first (processor_spent ?_) _
    refine spent_behind (congrArg some (Parse.outcome_separator _ hbrace)) ?_
    rw [if_neg hdepth]
    exact ih (by omega)

theorem expression_spent (h : readExpr budget s.cursor = Metered.giveUp) :
    expression budget s = none := by
  rw [expression, h]
  rfl

/-- An expression that is given up takes its statement with it. -/
theorem exit_spent {events : Array Event}
    (h : readExpr budget ⟨index + 2, ls, ending⟩ = Metered.giveUp) :
    sequence budget calls depth close
      ⟨⟨index, made (.keyword .exit) "exit" :: made .separator "(" :: ls, ending⟩, events⟩ =
        none := by
  have hopen : (made .separator "(").token.isSeparator '(' := by decide
  cases calls with
  | zero => rfl
  | succ calls =>
    rw [sequence]
    refine spent_first (statements_spent rfl rfl ?_) _
    refine spent_behind (congrArg some (Parse.outcome_separator _ hopen)) ?_
    exact spent_first (expression_spent h) _

theorem loose_opening : ∀ l ∈ opening, l.Loose := by
  simp [opening, Lexeme.loose_made]

theorem exists_program_spent
    (h : (budget.prefixed < 512 ∨ budget.climb ≤ 7 * 512) ∨ budget.sequence < 513) :
    ∃ ls : List Lexeme, (∀ l ∈ ls, l.Loose) ∧
      ∀ ending, program budget ⟨⟨0, ls, ending⟩, #[]⟩ = none := by
  rcases h with h | h
  · obtain ⟨ls, hloose, hspent⟩ := exists_readExpr_spent h
    refine ⟨made (.keyword .exit) "exit" :: made .separator "(" :: ls, ?_, ?_⟩
    · simpa [Lexeme.loose_made] using hloose
    · intro ending
      exact exit_spent (hspent _ ending)
  · refine ⟨(List.replicate budget.sequence opening).flatten, ?_, ?_⟩
    · intro l hl
      obtain ⟨ls, hls, hl⟩ := List.mem_flatten.mp hl
      rw [List.eq_of_mem_replicate hls] at hl
      exact loose_opening l hl
    · intro ending
      exact sequence_spent ((Nat.zero_add _).trans_le (Nat.le_of_lt_succ h))

end Rule

end Metered

open Metered

/-- Loose lexemes can be given as tokens. -/
theorem Cursor.ofTokens_loose {ls : List Lexeme} (h : ∀ l ∈ ls, l.Loose) :
    Cursor.ofTokens (ls.map Lexeme.token) 0 = ⟨0, ls, endToken (ls.map Lexeme.token)⟩ := by
  rw [Cursor.ofTokens, List.drop_zero]
  have hls := lexemes_append_loose [] h
  rw [List.nil_append] at hls
  rw [hls]
  rfl

/-- The bounds on the calls that are active at once are the least ones. With smaller budgets some
token lists are given up: unary operators one after the other, operators of growing power between
parentheses that open one after the other, or blocks that do. -/
theorem budget_suffices_iff (budget : CallBudget) :
    ((∀ ts start, parseExprWithin budget ts start ≠ none) ↔
      512 ≤ budget.prefixed ∧ 7 * 512 < budget.climb) ∧
    ((∀ ts start, parseFromWithin budget (.ofTokens ts start) ≠ none) ↔
      (512 ≤ budget.prefixed ∧ 7 * 512 < budget.climb) ∧ 513 ≤ budget.sequence) := by
  refine ⟨⟨?_, ?_⟩, ?_, ?_⟩
  · intro hnever
    by_contra hfew
    have hsmall : budget.prefixed < 512 ∨ budget.climb ≤ 7 * 512 := by omega
    obtain ⟨ls, hloose, hspent⟩ := exists_readExpr_spent hsmall
    apply hnever (ls.map Lexeme.token) 0
    rw [parseExprWithin, Cursor.ofTokens_loose hloose, hspent]
    rfl
  · intro henough ts start
    simp [parseExprWithin_eq henough.1 henough.2]
  · intro hnever
    by_contra hfew
    have hsmall : (budget.prefixed < 512 ∨ budget.climb ≤ 7 * 512) ∨ budget.sequence < 513 := by
      omega
    obtain ⟨ls, hloose, hspent⟩ := Rule.exists_program_spent hsmall
    apply hnever (ls.map Lexeme.token) 0
    rw [parseFromWithin, Cursor.ofTokens_loose hloose, hspent]
  · intro henough ts start
    simp [parseFromWithin_eq henough.1.1 henough.1.2 henough.2 (Cursor.ofTokens_proper ts start)]

end ImpAsm
