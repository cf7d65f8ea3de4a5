import ImpAsm.Main
import ImpAsm.Proofs.Cursor
import ImpAsm.Proofs.Expr.Grammar
import ImpAsm.Proofs.Expr.Reading
import ImpAsm.Proofs.Expr.Climbing
import ImpAsm.Proofs.Expr.Unambiguous
import ImpAsm.Proofs.Expr.Acceptance
import ImpAsm.Proofs.Stmt.Grammar
import ImpAsm.Proofs.Stmt.Recognition
import ImpAsm.Proofs.Stmt.Forms
import ImpAsm.Proofs.Stmt.Blocks
import ImpAsm.Proofs.Stmt.Programs
import ImpAsm.Proofs.Stmt.Outline
import ImpAsm.Proofs.Token.Scanning
import ImpAsm.Proofs.Stmt.Acceptance
import ImpAsm.Proofs.Source.Words
import ImpAsm.Proofs.Source.Printer
import ImpAsm.Proofs.Source.RoundTrip
import ImpAsm.Proofs.Semantics.Run
import ImpAsm.Proofs.Semantics.Simulation
import ImpAsm.Proofs.Machine.Basic
import ImpAsm.Proofs.Machine.Straight
import ImpAsm.Proofs.Machine.Values
import ImpAsm.Proofs.Machine.Expr
import ImpAsm.Proofs.Machine.Call
import ImpAsm.Proofs.Assembly.Operands
import ImpAsm.Proofs.Machine.Code
import ImpAsm.Proofs.Machine.Position
import ImpAsm.Proofs.Stmt.Scope
import ImpAsm.Proofs.Machine.Statements
import ImpAsm.Proofs.Machine.Behaviour
import ImpAsm.Proofs.Assembly.Bytes
import ImpAsm.Proofs.Assembly.Loading
import ImpAsm.Proofs.Stmt.Names
import ImpAsm.Proofs.Assembly.Generated
import ImpAsm.Proofs.Compilation.Correctness
import ImpAsm.Proofs.Stmt.Declarations
import ImpAsm.Proofs.Token.Rebuilding
import ImpAsm.Proofs.Stmt.Symbols
import ImpAsm.Proofs.Assembly.Symbols
import ImpAsm.Proofs.Lookahead
import ImpAsm.Proofs.Expr.Faults
import ImpAsm.Proofs.Stmt.Decision
import ImpAsm.Proofs.Stmt.Sentences
import ImpAsm.Proofs.Stmt.Faults
import ImpAsm.Proofs.Stmt.FirstFault
import ImpAsm.Proofs.Token.Likeness
import ImpAsm.Proofs.Expr.Likeness
import ImpAsm.Proofs.Stmt.Likeness
import ImpAsm.Proofs.Compilation.Layout
import ImpAsm.Proofs.Source.Concatenation
import ImpAsm.Proofs.Stmt.Nesting
import ImpAsm.Proofs.Command.Files
import ImpAsm.Proofs.Command.Reports
import ImpAsm.Proofs.Command.Runs
import ImpAsm.Proofs.Stmt.Calls
import ImpAsm.Proofs.Machine.Frame
import ImpAsm.Proofs.Machine.Evaluation
import ImpAsm.Proofs.Machine.Convention
import ImpAsm.Proofs.Token.Faults
import ImpAsm.Proofs.Stmt.Limits
import ImpAsm.Proofs.Stmt.Unambiguous
import ImpAsm.Proofs.Stmt.Thresholds
import ImpAsm.Proofs.Assembly.Generator
import ImpAsm.Proofs.Stmt.Processors
import ImpAsm.Proofs.Storage.Index
import ImpAsm.Proofs.Source.Trimming
import ImpAsm.Proofs.Machine.Balance
import ImpAsm.Proofs.Compilation.Alignment
import ImpAsm.Proofs.Expr.Misfits
import ImpAsm.Proofs.Expr.Literals
import ImpAsm.Proofs.Expr.CallDepth
import ImpAsm.Proofs.Stmt.CallDepth
import ImpAsm.Proofs.Stmt.Budgets
