namespace ImpAsm

/-- The value of a run of decimal digits, most significant first. -/
def digitsValue (ds : List Char) : Nat :=
  ds.foldl (fun n d => 10 * n + (d.toNat - '0'.toNat)) 0

/-- A nonempty run of decimal digits as a number. -/
def readDigits? (ds : List Char) : Option Nat :=
  if ds.isEmpty || !ds.all Char.isDigit then none else some (digitsValue ds)

/-- The signed 32-bit word with the given value, if there is one. -/
def word? (n : Int) : Option Int32 :=
  if -2147483648 ≤ n ∧ n ≤ 2147483647 then some (Int32.ofInt n) else none

/-- Reads a signed 32-bit word: at most one sign, then digits and nothing else. -/
def readWord? : List Char → Option Int32
  | '-' :: ds => (readDigits? ds).bind fun n => word? (-n)
  | '+' :: ds => (readDigits? ds).bind fun n => word? n
  | ds => (readDigits? ds).bind fun n => word? n

/-- A word is written in decimal, with a minus sign if it is negative. -/
def wordText (w : Int32) : String := toString w.toInt

end ImpAsm
