import ImpAsm.Token.Lexer

namespace ImpAsm

/-- The spot in a statement or expression at which something was expected. -/
inductive Place where
  | afterKeyword (k : Keyword)
  | afterStatement (k : Keyword)
  | afterCondition (k : Keyword)
  | afterExitStatus
  | afterPrintArgument
  | afterVariableName
  | afterFunctionName
  | afterCallArguments
  | afterProcessorName
  | inParameterList
  | afterParameterList
  | closingParenthesis
  | closingBlock
deriving DecidableEq

def Place.phrase : Place → String
  | afterKeyword k => "after `" ++ k.spelling ++ "`"
  | afterStatement k => "after " ++ k.spelling ++ " statement"
  | afterCondition k => "after " ++ k.spelling ++ " condition"
  | afterExitStatus => "after the exit status"
  | afterPrintArgument => "after the print argument"
  | afterVariableName => "after the variable name"
  | afterFunctionName => "after the function name"
  | afterCallArguments => "after the call arguments"
  | afterProcessorName => "after the processor name"
  | inParameterList => "in the parameter list"
  | afterParameterList => "after the parameter list"
  | closingParenthesis => "to close the parenthesized expression"
  | closingBlock => "to close the block"

/-- Why a token sequence is not a program. -/
inductive SyntaxFault where
  | expected (symbol : Char) (place : Place)
  | expectedName (place : Place)
  | expectedExpression
  | expectedStatement
  | strayElse
  | literalOutOfRange
  | expressionTooDeep
  | blockTooDeep
deriving DecidableEq

def SyntaxFault.message : SyntaxFault → String
  | expected symbol place => "expected `" ++ symbol.toString ++ "` " ++ place.phrase
  | expectedName place => "expected an identifier " ++ place.phrase
  | expectedExpression => "expected an expression"
  | expectedStatement => "expected a statement"
  | strayElse => "`else` without a preceding `if`"
  | literalOutOfRange => "integer literal out of range"
  | expressionTooDeep => "expression nested too deeply"
  | blockTooDeep => "blocks nested too deeply"

/-- A fault and the token at which it was found. -/
structure SyntaxError where
  token : Token
  fault : SyntaxFault
deriving DecidableEq

/-- The first reason for which a text has no assembly. -/
inductive CompileError where
  | lexical (position : Position) (fault : LexicalFault)
  | syntactic (error : SyntaxError)
  | undeclared (name : String)
deriving DecidableEq

def CompileError.message : CompileError → String
  | lexical p fault =>
    "lexical error at " ++ toString p.line ++ ":" ++ toString p.column ++ ": " ++ fault.message
  | syntactic ⟨t, fault⟩ =>
    "syntax error at " ++ toString t.position.line ++ ":" ++ toString t.position.column ++
      " near `" ++ t.describe ++ "`: " ++ fault.message
  | undeclared name => "semantic error: use of undeclared variable `" ++ name ++ "`"

/-- The tokens of a text that could be split to its end. -/
def Scan.result (s : Scan) : Except CompileError (List Token) :=
  match s.fault with
  | none => .ok s.tokens
  | some (p, fault) => .error (.lexical p fault)

/-- Splits a whole text into tokens. -/
def tokenize (s : String) : Except CompileError (List Token) := (scan .start s.toList).result

end ImpAsm
