import ImpAsm.Generation
import ImpAsm.Stmt.Parser

namespace ImpAsm

/-- A result with what was reported on the way to it, up to a failure. -/
structure Traced (α : Type) where
  events : List Event
  result : Except CompileError α

/-- Carries on with the result of a traced step, if there is one. -/
def Traced.andThen {α β : Type} (t : Traced α) (f : α → Traced β) : Traced β :=
  match t.result with
  | .error e => ⟨t.events, .error e⟩
  | .ok a =>
    let u := f a
    ⟨t.events ++ u.events, u.result⟩

/-- Splits a text into tokens and reports each one. -/
def tokenizeTraced (s : String) : Traced (List Token) :=
  let scanned := scan .start s.toList
  let found := scanned.tokens.map Event.scanned
  match scanned.result with
  | .error e => ⟨found, .error e⟩
  | .ok tokens => ⟨found ++ [.lexed tokens.length], .ok tokens⟩

/-- Reads the statements from `c` on, and tells where reading stopped. -/
def parseFrom (c : Cursor) : Traced Program × Cursor :=
  match Parse.program.run ⟨c, #[]⟩ with
  | .error e s => (⟨s.events.toList, .error (.syntactic e)⟩, s.cursor)
  | .ok p s => (⟨s.events.toList, .ok p⟩, s.cursor)

def parseTraced (tokens : List Token) : Traced Program := (parseFrom (.ofTokens tokens 0)).1

def generateTraced (p : Program) : Traced String :=
  let g := generate p
  match g.assembly with
  | .error e => ⟨g.events, .error e⟩
  | .ok a => ⟨g.events ++ [.compiled a.text.utf8ByteSize], .ok a.text⟩

def compileTraced (s : String) : Traced String :=
  (tokenizeTraced s).andThen fun tokens => (parseTraced tokens).andThen generateTraced

/-- Reads a token sequence as a program. -/
def parse (tokens : List Token) : Except CompileError Program := (parseTraced tokens).result

/-- Compiles a text to assembly text. -/
def compile (s : String) : Except CompileError String := (compileTraced s).result

end ImpAsm
