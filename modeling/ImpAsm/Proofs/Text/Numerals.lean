import Mathlib.Data.Nat.Digits.Defs
import ImpAsm.Proofs.Text.Decimal

namespace ImpAsm

/-- The number that decimal digits stand for, the digit of the ones last. -/
def decimalValue (ds : List Char) : Nat :=
  Nat.ofDigits 10 (ds.reverse.map fun d => d.toNat - '0'.toNat)

/-- At least one ASCII digit, and nothing else. -/
def IsDigits (ds : List Char) : Prop := ds ≠ [] ∧ ∀ d ∈ ds, d.isDigit

/-- A text that is a number: at most one sign, then digits, and nothing else. -/
inductive Numeral : List Char → Int → Prop where
  | plain {ds : List Char} (h : IsDigits ds) : Numeral ds (decimalValue ds)
  | plus {ds : List Char} (h : IsDigits ds) : Numeral ('+' :: ds) (decimalValue ds)
  | minus {ds : List Char} (h : IsDigits ds) : Numeral ('-' :: ds) (-decimalValue ds)

theorem digitsValue_eq (ds : List Char) : digitsValue ds = decimalValue ds := by
  rw [decimalValue, Nat.ofDigits_eq_foldr, List.map_reverse, List.foldr_reverse, List.foldl_map,
    digitsValue]
  congr 1
  funext n d
  exact Nat.add_comm _ _

theorem readDigits?_eq_some {ds : List Char} {n : Nat} :
    readDigits? ds = some n ↔ IsDigits ds ∧ n = decimalValue ds := by
  have hdigits : ¬ (ds.isEmpty || !ds.all Char.isDigit) ↔ IsDigits ds := by
    simp [IsDigits]
  rw [readDigits?, Option.ite_none_left_eq_some, hdigits, digitsValue_eq, Option.some.injEq,
    eq_comm]

/-- A word is found for a number if it has this value. -/
theorem word?_eq_some {n : Int} {w : Int32} : word? n = some w ↔ w.toInt = n := by
  constructor
  · intro h
    simp only [word?, Option.ite_none_right_eq_some, Option.some.injEq] at h
    obtain ⟨⟨hlo, hhi⟩, rfl⟩ := h
    exact Int32.toInt_ofInt_of_le hlo (by omega)
  · rintro rfl
    exact word?_toInt w

/-- Behind a sign or without one, digits are read as the word with their value. -/
theorem readDigits?_bind_eq_some {ds : List Char} {f : Nat → Int} {w : Int32} :
    ((readDigits? ds).bind fun n => word? (f n)) = some w ↔
      IsDigits ds ∧ w.toInt = f (decimalValue ds) := by
  rw [Option.bind_eq_some_iff]
  constructor
  · rintro ⟨n, hn, hw⟩
    obtain ⟨hds, rfl⟩ := readDigits?_eq_some.mp hn
    exact ⟨hds, word?_eq_some.mp hw⟩
  · rintro ⟨hds, hw⟩
    exact ⟨_, readDigits?_eq_some.mpr ⟨hds, rfl⟩, word?_eq_some.mpr hw⟩

theorem numeral_minus {ds : List Char} {n : Int} :
    Numeral ('-' :: ds) n ↔ IsDigits ds ∧ n = -decimalValue ds := by
  constructor
  · intro h
    cases h with
    | plain h => simpa using h.2 '-' (by simp)
    | minus h => exact ⟨h, rfl⟩
  · rintro ⟨h, rfl⟩
    exact .minus h

theorem numeral_plus {ds : List Char} {n : Int} :
    Numeral ('+' :: ds) n ↔ IsDigits ds ∧ n = decimalValue ds := by
  constructor
  · intro h
    cases h with
    | plain h => simpa using h.2 '+' (by simp)
    | plus h => exact ⟨h, rfl⟩
  · rintro ⟨h, rfl⟩
    exact .plus h

/-- The texts that are read as words are the numerals, with their values. -/
theorem readWord?_eq_some {cs : List Char} {w : Int32} :
    readWord? cs = some w ↔ Numeral cs w.toInt := by
  unfold readWord?
  split
  · rw [readDigits?_bind_eq_some, numeral_minus]
  · rw [readDigits?_bind_eq_some, numeral_plus]
  · next hminus hplus =>
    rw [readDigits?_bind_eq_some]
    constructor
    · rintro ⟨h, hw⟩
      rw [hw]
      exact .plain h
    · generalize w.toInt = n
      intro h
      cases h with
      | plain h => exact ⟨h, rfl⟩
      | @plus ds _ => exact absurd rfl (hplus ds)
      | @minus ds _ => exact absurd rfl (hminus ds)

theorem readWord?_eq_none {cs : List Char} :
    readWord? cs = none ↔ ∀ w : Int32, ¬ Numeral cs w.toInt := by
  rw [Option.eq_none_iff_forall_ne_some]
  exact forall_congr' fun w => not_congr readWord?_eq_some

theorem numeral_digits {ds : List Char} (h : IsDigits ds) {n : Int} :
    Numeral ds n ↔ n = decimalValue ds := by
  constructor
  · intro hn
    cases hn with
    | plain _ => rfl
    | plus _ => simpa using h.2 '+' (by simp)
    | minus _ => simpa using h.2 '-' (by simp)
  · rintro rfl
    exact .plain h

/-- Digits of any length keep their value or are no word. Behind a minus they go one further, since
there is one more negative word. -/
theorem numeral_word_digits {ds : List Char} (h : IsDigits ds) (w : Int32) :
    (Numeral ds w.toInt ↔ decimalValue ds ≤ 2147483647 ∧ w = .ofInt (decimalValue ds)) ∧
      (Numeral ('-' :: ds) w.toInt ↔
        decimalValue ds ≤ 2147483648 ∧ w = .ofInt (-decimalValue ds)) := by
  have hword (n : Int) : w.toInt = n ↔ (-2147483648 ≤ n ∧ n ≤ 2147483647) ∧ w = .ofInt n := by
    rw [← word?_eq_some, word?, Option.ite_none_right_eq_some, Option.some.injEq, eq_comm (b := w)]
  rw [numeral_digits h, numeral_minus, and_iff_right h, hword, hword]
  exact ⟨and_congr_left' (by omega), and_congr_left' (by omega)⟩

end ImpAsm
