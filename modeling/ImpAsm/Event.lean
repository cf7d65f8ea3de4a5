import ImpAsm.Expr.Basic
import ImpAsm.Text.Quoted
import ImpAsm.Token.Basic

namespace ImpAsm

/-- How much an event matters, from the most to the least urgent. -/
inductive Level where
  | error | warn | info | debug | trace
deriving DecidableEq

namespace Level

def name : Level → String
  | error => "ERROR"
  | warn => "WARN"
  | info => "INFO"
  | debug => "DEBUG"
  | trace => "TRACE"

def rank : Level → Nat
  | error => 0
  | warn => 1
  | info => 2
  | debug => 3
  | trace => 4

/-- A log kept at the level `limit` holds the events that are at least as urgent. -/
def within (l limit : Level) : Bool := l.rank ≤ limit.rank

end Level

/-- What a compilation reports while it runs. -/
inductive Event where
  | scanned (token : Token)
  | lexed (count : Nat)
  | expressionParsed (start stop height : Nat)
  | statementParsed (keyword : Keyword)
  | programParsed (statements : Nat)
  | collected (vars externals : Nat)
  | messageRegistered (label : String)
  | operation (op : BinOp)
  | valuePrinted
  | processorSkipped (name : String)
  | generated (labels messages : Nat)
  | compiled (bytes : Nat)
  | started (input : String)
  | written (output : String)
deriving DecidableEq

/-- The value of a field: shown as it is, or a text that a full report puts in quotes. -/
inductive FieldValue where
  | plain (s : String)
  | text (s : String)
deriving DecidableEq

def FieldValue.bare : FieldValue → String
  | plain s | text s => s

def FieldValue.full : FieldValue → String
  | plain s => s
  | text s => quoted s

namespace Event

def level : Event → Level
  | scanned _ | expressionParsed .. | operation _ => .trace
  | lexed _ | statementParsed _ | programParsed _ | collected .. | messageRegistered _
  | generated .. => .debug
  | valuePrinted | processorSkipped _ => .warn
  | compiled _ | started _ | written _ => .info

def message : Event → String
  | scanned _ => "token"
  | lexed _ => "lexed source"
  | expressionParsed .. => "parsed expression"
  | statementParsed _ => "parsed statement"
  | programParsed _ => "parsed program"
  | collected .. => "collected variables"
  | messageRegistered _ => "registered string literal"
  | operation _ => "binary operation"
  | valuePrinted => "printing a numeric value is not supported; no output is produced"
  | processorSkipped _ => "processor definitions produce no code; skipping"
  | generated .. => "generated assembly"
  | compiled _ => "compiled program"
  | started _ => "compiling"
  | written _ => "wrote assembly"

private def number (n : Nat) : FieldValue := .plain (toString n)

def fields : Event → List (String × FieldValue)
  | scanned t =>
    [("kind", .plain t.kind.name), ("text", .plain t.text), ("line", number t.position.line),
      ("column", number t.position.column)]
  | lexed n => [("count", number n)]
  | expressionParsed start stop height =>
    [("start", number start), ("end", number stop), ("height", number height)]
  | statementParsed k => [("keyword", .plain k.name)]
  | programParsed n => [("statements", number n)]
  | collected vars externals =>
    [("variables", number vars), ("externs", number externals)]
  | messageRegistered label => [("label", .plain label)]
  | operation op => [("op", .text op.symbol)]
  | valuePrinted => []
  | processorSkipped name => [("name", .plain name)]
  | generated labels messages => [("labels", number labels), ("strings", number messages)]
  | compiled bytes => [("bytes", number bytes)]
  | started input => [("input", .plain input)]
  | written output => [("output", .plain output)]

/-- The message and the fields, each value shown by `value`. -/
def describe (value : FieldValue → String) (e : Event) : String :=
  e.message ++ String.join (e.fields.map fun (name, v) => " " ++ name ++ "=" ++ value v)

/-- The event as one entry of a plain log. -/
def entry (e : Event) : String := e.level.name ++ " " ++ e.describe FieldValue.bare

/-- The event as a line of a report, with the level right-aligned in five columns. -/
def reportLine (e : Event) : String :=
  let level := e.level.name
  String.ofList (List.replicate (5 - level.length) ' ') ++ level ++ " " ++
    e.describe FieldValue.full

end Event

/-- The entries of a log kept at the level `limit`. -/
def logEntries (limit : Level) (events : List Event) : List String :=
  (events.filter (·.level.within limit)).map Event.entry

end ImpAsm
