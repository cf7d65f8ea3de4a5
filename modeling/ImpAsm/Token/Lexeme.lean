import ImpAsm.Token.Basic

namespace ImpAsm

/-- The operators that are spelled with two characters. -/
def compoundOperators : List String := ["==", "!=", "<=", ">=", "&&", "||"]

/-- Whether two tokens are operators that touch in the text and together spell one operator. Offsets
have no bound here; in a machine word the sum would overflow at the largest offset, 2 ^ 64 - 1. -/
def Token.joins (a b : Token) : Bool :=
  a.kind == .operator && b.kind == .operator && b.position.offset == a.position.offset + 1 &&
    compoundOperators.contains (a.text ++ b.text)

/-- One token, or two that together spell one operator. -/
structure Lexeme where
  token : Token
  second : Option Token
deriving DecidableEq

namespace Lexeme

/-- How many tokens the lexeme is made of. -/
def width (l : Lexeme) : Nat := if l.second.isSome then 2 else 1

/-- The operator that the lexeme spells, if its tokens are operators. -/
def operator? (l : Lexeme) : Option String :=
  match l.second with
  | some t => some (l.token.text ++ t.text)
  | none => if l.token.kind = .operator then some l.token.text else none

end Lexeme

/-- Groups tokens into lexemes from the left. -/
def lexemes : List Token → List Lexeme
  | [] => []
  | [t] => [⟨t, none⟩]
  | a :: b :: ts =>
    if a.joins b then ⟨a, some b⟩ :: lexemes ts else ⟨a, none⟩ :: lexemes (b :: ts)

end ImpAsm
