import ImpAsm.Proofs.Machine.Basic

namespace ImpAsm

namespace Value

@[simp] theorem low?_ofInt32 (v : Int32) : (ofInt32 v).low? = some v := by
  simp [ofInt32, low?]

theorem byte?_withByte (w : UInt64) (b : UInt8) :
    (word ((w &&& 0xFFFFFFFFFFFFFF00) ||| b.toUInt64)).byte? = some b := by
  have hmask : (18446744073709551360 : UInt8) = 0 := rfl
  simp [byte?, hmask]

/-- A byte can be written to a word, and it is read back. -/
theorem withByte?_word (w : UInt64) (b : UInt8) :
    ∃ w', (word w).withByte? b = some (word w') ∧ (word w').byte? = some b :=
  ⟨_, rfl, byte?_withByte w b⟩

theorem word_toUInt64_truth (c : Bool) :
    word (if c then (1 : UInt8) else 0).toUInt64 = ofInt32 (truthValue c) := by
  cases c <;> rfl

end Value

/-- Extending the sign of a word to 64 bits keeps its value. -/
theorem toInt_signExtended (x : Int32) :
    (if x < 0 then (-1 : Int32) else 0).toInt * 2 ^ 32 + x.toUInt32.toNat = x.toInt := by
  have hcond : x.toInt = if 2 * x.toUInt32.toNat < 2 ^ 32 then (x.toUInt32.toNat : Int)
      else x.toUInt32.toNat - 2 ^ 32 := BitVec.toInt_eq_toNat_cond x.toBitVec
  have hlt := x.toUInt32.toNat_lt
  have hneg : x < 0 ↔ x.toInt < 0 := Int32.lt_iff_toInt_lt
  have hone : (-1 : Int32).toInt = -1 := rfl
  have hzero : (0 : Int32).toInt = 0 := rfl
  split at hcond
  · have hx : ¬ x < 0 := fun h => absurd (hneg.mp h) (by omega)
    rw [if_neg hx, hzero]
    omega
  · have hx : x < 0 := hneg.mpr (by omega)
    rw [if_pos hx, hone]
    omega

theorem toNat_toUInt32_eq_zero (x : Int32) : ((x.toUInt32.toNat : Int) = 0) ↔ x = 0 := by
  constructor
  · intro h
    have hnat : x.toUInt32.toNat = 0 := by omega
    have hword : x.toUInt32 = 0 := UInt32.toNat_inj.mp hnat
    rw [← Int32.toInt32_toUInt32 x, hword]
    rfl
  · intro h
    subst h
    rfl

/-- A quotient of 32-bit words is no 32-bit word only where the least word is divided by -1. -/
theorem quotient_out_of_range (x y : Int32) (hy : y ≠ 0) :
    (x.toInt.tdiv y.toInt < -2 ^ 31 ∨ 2 ^ 31 ≤ x.toInt.tdiv y.toInt) ↔
      x = Int32.minValue ∧ y = -1 := by
  have hlo : -2147483648 ≤ x.toInt := x.le_toInt
  have hhi : x.toInt < 2147483648 := x.toInt_lt
  constructor
  · intro h
    by_cases hx : x = Int32.minValue
    · by_cases hy' : y = -1
      · exact ⟨hx, hy'⟩
      · have hq := Int32.toInt_div_of_ne_right x y hy'
        have h1 : -2147483648 ≤ (x / y).toInt := (x / y).le_toInt
        have h2 : (x / y).toInt < 2147483648 := (x / y).toInt_lt
        omega
    · have hq := Int32.toInt_div_of_ne_left x y hx
      have h1 : -2147483648 ≤ (x / y).toInt := (x / y).le_toInt
      have h2 : (x / y).toInt < 2147483648 := (x / y).toInt_lt
      omega
  · intro h
    obtain ⟨rfl, rfl⟩ := h
    exact .inr (by decide)

/-- Dividing a word whose sign is extended is the division of words. -/
theorem divide_eq (s : State) (x y : Int32) :
    s.divide (if x < 0 then -1 else 0) x y =
      match BinOp.div.eval? x y with
      | some q => .running ((s.put .rax q).put .rdx (.ofInt (x.toInt.tmod y.toInt)))
      | none => .ended .divideError s := by
  simp only [State.divide, toInt_signExtended]
  by_cases hy : y = 0
  · simp [BinOp.eval?, hy]
  · have hrange := quotient_out_of_range x y hy
    by_cases hxy : x = Int32.minValue ∧ y = -1
    · rw [if_pos (.inr (hrange.mpr hxy))]
      simp [BinOp.eval?, hxy]
    · have hq : Int32.ofInt (x.toInt.tdiv y.toInt) = x / y := by
        rw [Int32.ofInt_tdiv x.minValue_le_toInt x.toInt_le y.minValue_le_toInt y.toInt_le,
          Int32.ofInt_toInt, Int32.ofInt_toInt]
      have hok : ¬ (y = 0 ∨ x.toInt.tdiv y.toInt < -2 ^ 31 ∨ 2 ^ 31 ≤ x.toInt.tdiv y.toInt) := by
        intro h
        rcases h with h | h
        · exact hy h
        · exact hxy (hrange.mp h)
      rw [if_neg hok, hq]
      simp [BinOp.eval?, hy, hxy]

end ImpAsm
