import ImpAsm.Proofs.Cursor
import ImpAsm.Proofs.Expr.Grammar

namespace ImpAsm

namespace Operand

/-- The reader takes what lies between `c` and `d` as the operand `o`. -/
def Reads (r : Reader) (c : Cursor) (o : Operand) (d : Cursor) : Prop :=
  ∃ h, r c = .ok (o, ⟨d, h⟩)

/-- Extending `left` at `c` gives the operand `o` and stops at `d`. -/
def Extends (r : Reader) (least : Nat) (left : Operand) (c : Cursor) (o : Operand) (d : Cursor) :
    Prop :=
  ∃ h, extend r least left c = .ok (o, ⟨d, h⟩)

variable {r : Reader} {c d : Cursor} {o left : Operand} {least : Nat}

theorem reads_climb :
    Reads (climb r least) c o d ↔ ∃ left m, Reads r c left m ∧ Extends r least left m o d := by
  constructor
  · intro hall
    obtain ⟨h, hc⟩ := hall
    simp only [climb] at hc
    cases hr : r c with
    | error e => simp [hr] at hc
    | ok x =>
      obtain ⟨left, m, hm⟩ := x
      simp only [hr] at hc
      cases he : extend r least left m with
      | error e => simp [he] at hc
      | ok y =>
        obtain ⟨all, m', hm'⟩ := y
        simp only [he, Except.ok.injEq, Prod.mk.injEq, Subtype.mk.injEq] at hc
        obtain ⟨rfl, rfl⟩ := hc
        exact ⟨left, m, ⟨hm, hr⟩, hm', he⟩
  · intro hall
    obtain ⟨left, m, ⟨hm, hr⟩, hd, he⟩ := hall
    exact ⟨Nat.lt_of_le_of_lt hd hm, by simp [climb, hr, he]⟩

/-- Where no operator binds tightly enough, the operand is complete. -/
theorem extends_stop (h : ∀ op ∈ binOp? c, op.power < least) :
    Extends r least left c o d ↔ o = left ∧ d = c := by
  have he : extend r least left c = .ok (left, ⟨c, Nat.le_refl _⟩) := by
    rw [extend]
    cases hb : binOp? c with
    | none => rfl
    | some op => simp [h op hb]
  constructor
  · intro hall
    obtain ⟨hd, hx⟩ := hall
    rw [he] at hx
    simp only [Except.ok.injEq, Prod.mk.injEq, Subtype.mk.injEq] at hx
    exact ⟨hx.1.symm, hx.2.symm⟩
  · intro hall
    obtain ⟨rfl, rfl⟩ := hall
    exact ⟨_, he⟩

/-- An operator that binds tightly enough takes a right operand of tighter operators, and the
whole is extended further. -/
theorem extends_step {op : BinOp} (hb : binOp? c = some op) (hp : least ≤ op.power) :
    Extends r least left c o d ↔
      ∃ right m, Reads (climb r (op.power + 1)) c.next right m ∧
        max left.height right.height + 1 ≤ nestingLimit ∧
        Extends r least
          ⟨.binary op left.expr right.expr, max left.height right.height + 1⟩ m o d := by
  constructor
  · intro hall
    obtain ⟨h, hx⟩ := hall
    rw [extend] at hx
    simp only [hb, Nat.not_lt.mpr hp, if_false] at hx
    cases hr : r c.next with
    | error e => simp [hr] at hx
    | ok x =>
      obtain ⟨first, m, hm⟩ := x
      simp only [hr] at hx
      cases he : extend r (op.power + 1) first m with
      | error e => simp [he] at hx
      | ok y =>
        obtain ⟨right, m', hm'⟩ := y
        simp only [he, node] at hx
        by_cases hn : nestingLimit < max left.height right.height + 1
        · simp [hn] at hx
        simp only [hn, if_false] at hx
        cases ht : extend r least ⟨.binary op left.expr right.expr,
            max left.height right.height + 1⟩ m' with
        | error e => simp [ht] at hx
        | ok z =>
          obtain ⟨all, m'', hm''⟩ := z
          simp only [ht, Except.ok.injEq, Prod.mk.injEq, Subtype.mk.injEq] at hx
          obtain ⟨rfl, rfl⟩ := hx
          exact ⟨right, m', reads_climb.mpr ⟨first, m, ⟨hm, hr⟩, hm', he⟩, Nat.le_of_not_lt hn,
            hm'', ht⟩
  · intro hall
    obtain ⟨right, m, hc, hn, hd, ht⟩ := hall
    obtain ⟨first, m', ⟨hm', hr⟩, hm, he⟩ := reads_climb.mp hc
    have hd' : d.rest.length ≤ c.rest.length :=
      Nat.le_trans hd (Nat.le_trans hm (Nat.le_trans (Nat.le_of_lt hm') c.next_le))
    refine ⟨hd', ?_⟩
    rw [extend]
    simp only [hb, Nat.not_lt.mpr hp, if_false, hr, he, node, Nat.not_lt.mpr hn, ht]

theorem reads_applied {op : UnOp} :
    Reads (applied op r) c o d ↔
      ∃ inner, Reads r c.next inner d ∧ inner.height + 1 ≤ nestingLimit ∧
        o = ⟨.unary op inner.expr, inner.height + 1⟩ := by
  constructor
  · intro hall
    obtain ⟨h, hx⟩ := hall
    simp only [applied] at hx
    cases hr : r c.next with
    | error e => simp [hr] at hx
    | ok x =>
      obtain ⟨inner, m, hm⟩ := x
      by_cases hn : nestingLimit < inner.height + 1
      · simp [hr, node, hn] at hx
      · simp only [hr, node, hn, if_false, Except.ok.injEq, Prod.mk.injEq, Cursor.afterNext,
          Subtype.mk.injEq] at hx
        obtain ⟨rfl, rfl⟩ := hx
        exact ⟨inner, ⟨hm, hr⟩, Nat.le_of_not_lt hn, rfl⟩
  · intro hall
    obtain ⟨inner, ⟨hd, hr⟩, hn, rfl⟩ := hall
    refine ⟨(Cursor.afterNext ⟨d, hd⟩).2, ?_⟩
    simp only [applied, hr, node, Nat.not_lt.mpr hn, if_false]
    rfl

theorem reads_parenthesized :
    Reads (parenthesized r) c o d ↔
      ∃ m, Reads r c.next o m ∧ m.peek.isSeparator ')' ∧ d = m.next := by
  constructor
  · intro hall
    obtain ⟨h, hx⟩ := hall
    simp only [parenthesized] at hx
    cases hr : r c.next with
    | error e => simp [hr] at hx
    | ok x =>
      obtain ⟨inner, m, hm⟩ := x
      by_cases hs : m.peek.isSeparator ')'
      · simp only [hr, hs, if_true, Except.ok.injEq, Prod.mk.injEq, Cursor.afterNext,
          Subtype.mk.injEq] at hx
        obtain ⟨rfl, rfl⟩ := hx
        exact ⟨m, ⟨hm, hr⟩, hs, rfl⟩
      · simp [hr, hs] at hx
  · intro hall
    obtain ⟨m, ⟨hm, hr⟩, hs, rfl⟩ := hall
    have hd : m.next.rest.length < c.next.rest.length := Nat.lt_of_le_of_lt m.next_le hm
    refine ⟨(Cursor.afterNext ⟨m.next, hd⟩).2, ?_⟩
    simp only [parenthesized, hr, hs, if_true]
    rfl

/-- An integer is read if it has a value, and then its token is taken. -/
theorem integer_eq_ok {sign : String} {h : c.rest ≠ []} {x : Operand × c.Beyond} :
    integer sign c h = .ok x ↔
      ∃ w, readWord? (sign ++ c.peek.text).toList = some w ∧
        x = (leaf (.num w), c.following h) := by
  unfold integer
  cases readWord? (sign ++ c.peek.text).toList with
  | none => simp
  | some w => simp [eq_comm]

end Operand

end ImpAsm
