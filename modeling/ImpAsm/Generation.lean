import ImpAsm.Assembly.Printer
import ImpAsm.Stmt.Code
import ImpAsm.Stmt.Scope
import ImpAsm.Stmt.Symbols

namespace ImpAsm

/-- The outcome of generating code. The tables hold what was entered before a failure. -/
structure Generation where
  vars : Variables
  messages : Messages
  events : List Event
  assembly : Except CompileError Assembly

/-- Collects the symbols of a program, checks its names, and generates its code. -/
def generate (p : Program) : Generation :=
  let symbols := Program.symbols p
  let begun := Event.collected symbols.vars.size symbols.externals.length
  match (Walk.stmts p).run ⟨[], .empty, #[begun]⟩ with
  | .error e scope => ⟨symbols.vars, scope.messages, scope.events.toList, .error e⟩
  | .ok () scope =>
    { vars := symbols.vars
      messages := scope.messages
      events := scope.events.toList ++ [.generated (labelCount p) scope.messages.size]
      assembly := .ok
        { externals := symbols.externals
          code := Program.code scope.messages p
          messages := scope.messages
          vars := symbols.vars } }

end ImpAsm
