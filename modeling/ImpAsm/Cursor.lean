import ImpAsm.Error
import ImpAsm.Token.Lexeme

namespace ImpAsm

/-- The deepest nesting that is accepted, of blocks as well as of expressions. -/
def nestingLimit : Nat := 512

/-- The end of a token sequence that does not say where it ends. -/
def unplacedEnd : Token := ⟨.eof, "", ⟨0, 0, 0⟩⟩

/-- The token that is read past the end: the last one if it is an end of input. -/
def endToken (tokens : List Token) : Token :=
  match tokens.getLast? with
  | some t => if t.kind = .eof then t else unplacedEnd
  | none => unplacedEnd

/-- A place in a token sequence: the tokens before it are counted, those after it are lexemes. -/
structure Cursor where
  index : Nat
  rest : List Lexeme
  ending : Token
deriving DecidableEq

namespace Cursor

/-- The place before token number `index`. -/
def ofTokens (tokens : List Token) (index : Nat) : Cursor :=
  ⟨index, lexemes (tokens.drop index), endToken tokens⟩

/-- The token at the cursor. -/
def peek (c : Cursor) : Token :=
  match c.rest with
  | [] => c.ending
  | l :: _ => l.token

/-- The operator at the cursor. -/
def operator? (c : Cursor) : Option String := c.rest.head?.bind Lexeme.operator?

/-- The place after the lexeme at the cursor; the cursor stays at the end. -/
def next (c : Cursor) : Cursor :=
  match c.rest with
  | [] => c
  | l :: ls => ⟨c.index + l.width, ls, c.ending⟩

def atEnd (c : Cursor) : Bool := c.peek.kind == .eof

/-- A fault at the cursor. -/
def error (c : Cursor) (fault : SyntaxFault) : SyntaxError := ⟨c.peek, fault⟩

/-- The places after `c`. -/
abbrev Beyond (c : Cursor) := { d : Cursor // d.rest.length < c.rest.length }

/-- The places not before `c`. -/
abbrev Onward (c : Cursor) := { d : Cursor // d.rest.length ≤ c.rest.length }

theorem next_le (c : Cursor) : c.next.rest.length ≤ c.rest.length := by
  unfold next
  split <;> simp [*]

theorem next_lt {c : Cursor} (h : c.rest ≠ []) : c.next.rest.length < c.rest.length := by
  unfold next
  split <;> simp_all

/-- The place after the lexeme at `c`. -/
def following (c : Cursor) (h : c.rest ≠ []) : c.Beyond := ⟨c.next, next_lt h⟩

/-- What lies after the lexeme at `c` lies after `c`. -/
def afterNext {c : Cursor} (d : c.next.Beyond) : c.Beyond :=
  ⟨d, Nat.lt_of_lt_of_le d.2 c.next_le⟩

end Cursor

end ImpAsm
