namespace ImpAsm

/-- The reserved words, named for the statement that each one starts or continues. -/
inductive Keyword where
  | exit | print | declare | branch | otherwise | loop | assign | processor | call
deriving DecidableEq

namespace Keyword

def all : List Keyword :=
  [exit, print, declare, branch, otherwise, loop, assign, processor, call]

/-- How the keyword is written in a program. -/
def spelling : Keyword → String
  | exit => "exit"
  | print => "print"
  | declare => "let"
  | branch => "if"
  | otherwise => "else"
  | loop => "while"
  | assign => "assign"
  | processor => "processor"
  | call => "call"

/-- How reports name the keyword. -/
def name : Keyword → String
  | exit => "Exit"
  | print => "Print"
  | declare => "Let"
  | branch => "If"
  | otherwise => "Else"
  | loop => "While"
  | assign => "Assign"
  | processor => "Processor"
  | call => "Call"

def ofSpelling? (s : String) : Option Keyword := all.find? (·.spelling == s)

end Keyword

inductive TokenKind where
  | int | keyword (k : Keyword) | separator | operator | str | ident | bool | eof | unknown
deriving DecidableEq

/-- How reports name the kind. -/
def TokenKind.name : TokenKind → String
  | int => "Int"
  | keyword k => "Keyword(" ++ k.name ++ ")"
  | separator => "Separator"
  | operator => "Operator"
  | str => "Str"
  | ident => "Ident"
  | bool => "Bool"
  | eof => "Eof"
  | unknown => "Unknown"

/-- A place in a text: the characters before it, and its line and column, both counted from 1. -/
structure Position where
  offset : Nat
  line : Nat
  column : Nat
deriving DecidableEq

namespace Position

def start : Position := ⟨0, 1, 1⟩

/-- The place after one more character; only a line feed starts a new line. -/
def step (p : Position) (c : Char) : Position :=
  if c = '\n' then ⟨p.offset + 1, p.line + 1, 1⟩ else ⟨p.offset + 1, p.line, p.column + 1⟩

/-- The place after the characters `cs`. -/
def after (p : Position) (cs : List Char) : Position := cs.foldl step p

@[simp] theorem after_nil (p : Position) : p.after [] = p := rfl

@[simp] theorem after_cons (p : Position) (c : Char) (cs : List Char) :
    p.after (c :: cs) = (p.step c).after cs := rfl

@[simp] theorem after_append (p : Position) (cs ds : List Char) :
    p.after (cs ++ ds) = (p.after cs).after ds := List.foldl_append

end Position

/-- A token and where its first character stands. The text of a string has no quotes. -/
structure Token where
  kind : TokenKind
  text : String
  position : Position
deriving DecidableEq

namespace Token

/-- Whether the token is the separator `c`, judged by the first character of its text. -/
def isSeparator (t : Token) (c : Char) : Bool :=
  t.kind == .separator && t.text.toList.head? == some c

def isKeyword (t : Token) (k : Keyword) : Bool := t.kind == .keyword k

/-- The token as a diagnostic shows it. -/
def describe (t : Token) : String :=
  match t.kind with
  | .eof => "end of input"
  | .str => "\"" ++ t.text ++ "\""
  | _ => t.text

end Token

end ImpAsm
