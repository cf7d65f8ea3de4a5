import ImpAsm.Text.Blank
import ImpAsm.Token.Basic

namespace ImpAsm

/-- Why a text cannot be split into tokens. -/
inductive LexicalFault where
  | unterminatedString
  | unknownCharacter (c : Char)
deriving DecidableEq

def LexicalFault.message : LexicalFault → String
  | unterminatedString => "unterminated string literal"
  | unknownCharacter c => "unknown character '" ++ c.toString ++ "'"

def separators : List Char := ['(', ')', '\x7b', '\x7d', ';', ',']

def operators : List Char := ['+', '-', '*', '/', '=', '<', '>', '!', '&', '|']

/-- A word is a keyword or a truth value if it is spelled like one, and a name otherwise. -/
def wordKind (w : String) : TokenKind :=
  match Keyword.ofSpelling? w with
  | some k => .keyword k
  | none => if w = "true" ∨ w = "false" then .bool else .ident

/-- What a text starts with: something that separates tokens, or a token. -/
inductive Piece where
  | gap
  | token (kind : TokenKind) (text : String)
deriving DecidableEq

/-- The first piece of the text `c :: cs`, and how many characters of `cs` belong to it. -/
def firstPiece (c : Char) (cs : List Char) : Except LexicalFault (Piece × Nat) :=
  if isBlank c then
    .ok (.gap, 0)
  else if c.isDigit then
    let run := cs.takeWhile Char.isDigit
    .ok (.token .int (String.ofList (c :: run)), run.length)
  else if c.isAlpha then
    let run := cs.takeWhile Char.isAlpha
    let word := String.ofList (c :: run)
    .ok (.token (wordKind word) word, run.length)
  else if c = '"' then
    let body := cs.takeWhile (· ≠ '"')
    if body.length < cs.length then .ok (.token .str (String.ofList body), body.length + 1)
    else .error .unterminatedString
  else if c ∈ separators then
    .ok (.token .separator c.toString, 0)
  else if c = '/' ∧ cs.head? = some '/' then
    .ok (.gap, (cs.takeWhile (· ≠ '\n')).length)
  else if c ∈ operators then
    .ok (.token .operator c.toString, 0)
  else
    .error (.unknownCharacter c)

/-- The tokens of a text as far as it can be split, and the place and the reason if it cannot. -/
structure Scan where
  tokens : List Token
  fault : Option (Position × LexicalFault)
deriving DecidableEq

/-- Splits a text that starts at `p`; the last token of a text without a fault is its end. -/
def scan (p : Position) : List Char → Scan
  | [] => ⟨[⟨.eof, "", p⟩], none⟩
  | c :: cs =>
    match firstPiece c cs with
    | .error fault => ⟨[], some (p, fault)⟩
    | .ok (.gap, more) => scan (p.after (c :: cs.take more)) (cs.drop more)
    | .ok (.token kind text, more) =>
      let tail := scan (p.after (c :: cs.take more)) (cs.drop more)
      ⟨⟨kind, text, p⟩ :: tail.tokens, tail.fault⟩
termination_by cs => cs.length

end ImpAsm
