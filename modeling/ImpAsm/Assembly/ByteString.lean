namespace ImpAsm

/-- A part of the operands that define bytes: a run of characters in quotes, or one number. -/
inductive ByteOperand where
  | run (chars : List Char)
  | byte (b : UInt8)
deriving DecidableEq

def ByteOperand.text : ByteOperand → String
  | run cs => "\"" ++ String.ofList cs ++ "\""
  | byte b => toString b.toNat

/-- Whether a byte may stand in a quoted run: printable, and not the quote itself. -/
def isQuotable (b : UInt8) : Bool := 0x20 ≤ b && b ≤ 0x7E && b ≠ 0x22

/-- Puts one byte in front of operands; quotable bytes that touch share a run. -/
def consByte (b : UInt8) (rest : List ByteOperand) : List ByteOperand :=
  if isQuotable b then
    let c := Char.ofNat b.toNat
    match rest with
    | .run cs :: more => .run (c :: cs) :: more
    | _ => .run [c] :: rest
  else .byte b :: rest

/-- The operands for a text and the line feed that ends it. -/
def byteOperands (s : String) : List ByteOperand :=
  s.toUTF8.data.toList.foldr consByte [.byte 10]

/-- The operands of the directive that defines a text and the line feed that ends it. -/
def byteStringText (s : String) : String :=
  ", ".intercalate ((byteOperands s).map ByteOperand.text)

end ImpAsm
