import ImpAsm.Text.Decimal

namespace ImpAsm

theorem isDigit_of_mem_repr {n : Nat} {c : Char} (h : c ∈ n.repr.toList) : c.isDigit := by
  rw [Nat.toList_repr] at h
  exact Nat.isDigit_of_mem_toDigits (by decide) (by decide) h

theorem toList_repr_ne_nil (n : Nat) : n.repr.toList ≠ [] := by
  rw [Nat.toList_repr]
  exact Nat.toDigits_ne_nil

theorem digitsValue_repr (n : Nat) : digitsValue n.repr.toList = n := by
  rw [Nat.toList_repr]
  exact Nat.ofDigitChars_ten_toDigits

theorem readDigits?_repr (n : Nat) : readDigits? n.repr.toList = some n := by
  have hall : n.repr.toList.all Char.isDigit := by
    rw [List.all_eq_true]
    intro c hc
    exact isDigit_of_mem_repr hc
  have hne : n.repr.toList.isEmpty = false := List.isEmpty_eq_false_iff.mpr (toList_repr_ne_nil n)
  rw [readDigits?, hne, hall, digitsValue_repr]
  rfl

theorem readWord?_repr (n : Nat) : readWord? n.repr.toList = word? n := by
  have hdigits := readDigits?_repr n
  unfold readWord?
  split
  · next ds hds =>
    have hd := isDigit_of_mem_repr (n := n) (c := '-') (by simp [hds])
    simp at hd
  · next ds hds =>
    have hd := isDigit_of_mem_repr (n := n) (c := '+') (by simp [hds])
    simp at hd
  · rw [hdigits]
    rfl

theorem readWord?_minus (n : Nat) : readWord? ("-" ++ n.repr).toList = word? (-n) := by
  have htext : ("-" ++ n.repr).toList = '-' :: n.repr.toList := by simp
  rw [htext, readWord?, readDigits?_repr]
  rfl

theorem word?_toInt (w : Int32) : word? w.toInt = some w := by
  have hlo : -2147483648 ≤ w.toInt := w.le_toInt
  have hhi : w.toInt ≤ 2147483647 := Int.le_of_lt_add_one w.toInt_lt
  rw [word?, if_pos ⟨hlo, hhi⟩, Int32.ofInt_toInt]

/-- A negative word is its sign and the digits of its magnitude. -/
theorem readWord?_negative {w : Int32} (h : w.toInt < 0) :
    readWord? ("-" ++ w.toInt.natAbs.repr).toList = some w := by
  rw [readWord?_minus, ← word?_toInt w]
  congr 1
  omega

theorem readWord?_natural {w : Int32} (h : 0 ≤ w.toInt) :
    readWord? w.toInt.natAbs.repr.toList = some w := by
  rw [readWord?_repr, ← word?_toInt w]
  congr 1
  omega

/-- A word that is written is read back. -/
theorem readWord?_wordText (w : Int32) : readWord? (wordText w).toList = some w := by
  by_cases h : w.toInt < 0
  · obtain ⟨n, hn⟩ : ∃ n, w.toInt = Int.negSucc n := ⟨w.toInt.natAbs - 1, by omega⟩
    have htext : wordText w = "-" ++ w.toInt.natAbs.repr := by
      rw [wordText, hn]
      rfl
    rw [htext, readWord?_negative h]
  · obtain ⟨n, hn⟩ : ∃ n : Nat, w.toInt = n := ⟨w.toInt.natAbs, by omega⟩
    have htext : wordText w = w.toInt.natAbs.repr := by
      rw [wordText, hn]
      rfl
    rw [htext, readWord?_natural (by omega)]

end ImpAsm
