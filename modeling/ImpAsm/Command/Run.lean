import ImpAsm.Command.Files
import ImpAsm.Command.Options
import ImpAsm.Compilation
import ImpAsm.Dump
import ImpAsm.Text.Blank

namespace ImpAsm

def versionText : String := "tinyc 0.1.0\n"

def usageText : String := "Usage: tinyc [OPTIONS] <INPUT>\n"

def helpText : String :=
  usageText ++ "
Arguments:
  <INPUT>  Source file to compile, or `-` to read stdin

Options:
  -o, --output <OUTPUT>  Where to write the generated assembly [default: output.asm]
      --dump-tokens      Print the token sequence to stderr
      --dump-ast         Print the syntax tree to stderr
  -v, --verbose...       Log more (-v info, -vv debug, -vvv trace)
  -h, --help             Print help
  -V, --version          Print version
"

/-- What a run shows while it works: events of the log, and dumps that were asked for. -/
inductive Entry where
  | event (e : Event)
  | dump (o : Outline)

/-- The text of an entry; events beyond the level of the log are left out. -/
def Entry.text (limit : Level) : Entry → String
  | event e => if e.level.within limit then e.reportLine ++ "\n" else ""
  | dump o => o.text

def entriesText (limit : Level) (entries : List Entry) : String :=
  String.join (entries.map (·.text limit))

/-- A text with every line behind the margin. -/
def indented (margin text : String) : String :=
  margin ++ String.ofList
    (text.toList.flatMap fun c => if c = '\n' then c :: margin.toList else [c])

/-- The final words of a run that failed: what it was doing, and why it could not. -/
def failureText (context reason : String) : String :=
  "Error: " ++ context ++ "\n\nCaused by:\n" ++ indented "    " reason ++ "\n"

/-- How a run meets its user: what it takes the arguments to ask for, and the words in which it
reports a failure, from what it was doing and the reason why it could not. -/
structure Interface where
  request : List String → Request
  report : (context reason : String) → String

/-- The arguments and reports of the command line. -/
def Interface.terminal : Interface := ⟨Request.ofArguments, failureText⟩

/-- The dumps that were asked for with the events on the way, and the error that cut them short. -/
def dumpEntries (o : Options) (source : String) : List Entry × Option CompileError :=
  if o.dumpTokens || o.dumpTree then
    let lexed := tokenizeTraced source
    match lexed.result with
    | .error e => (lexed.events.map .event, some e)
    | .ok tokens =>
      let shown := lexed.events.map .event ++
        if o.dumpTokens then [.dump (tokensOutline tokens)] else []
      if o.dumpTree then
        let parsed := parseTraced tokens
        let shown := shown ++ parsed.events.map .event
        match parsed.result with
        | .error e => (shown, some e)
        | .ok p => (shown ++ [.dump (programOutline p)], none)
      else (shown, none)
  else ([], none)

/-- Compiles a text that has been read, after the dumps. -/
def compileEntries (o : Options) (source : String) : List Entry × Except CompileError String :=
  let begun := Entry.event (.started o.input)
  match dumpEntries o source with
  | (shown, some e) => (begun :: shown, .error e)
  | (shown, none) =>
    let compiled := compileTraced source
    (begun :: shown ++ compiled.events.map .event, compiled.result)

/-- How a run ends, and what it printed. -/
structure Outcome where
  status : Nat
  output : String
  errors : String
deriving DecidableEq

/-- Runs a command line. The output file is written last, once everything else has succeeded. -/
def runCommand {m : Type → Type} [Monad m] (ui : Interface) (fs : FileSystem m)
    (args : List String) : m Outcome := do
  match ui.request args with
  | .help => return ⟨0, helpText, ""⟩
  | .version => return ⟨0, versionText, ""⟩
  | .misuse => return ⟨2, "", "error: invalid arguments\n\n" ++ usageText⟩
  | .compile o =>
    match ← if o.input = "-" then fs.standardInput else fs.read o.input with
    | .error reason => return ⟨1, "", ui.report ("reading " ++ o.input) reason⟩
    | .ok contents =>
      let (entries, result) := compileEntries o (String.ofList (trimEnd contents.toList))
      let shown := entriesText o.level entries
      match result with
      | .error e => return ⟨1, "", shown ++ ui.report ("compiling " ++ o.input) e.message⟩
      | .ok assembly =>
        match ← fs.write o.output assembly with
        | .error reason => return ⟨1, "", shown ++ ui.report ("writing " ++ o.output) reason⟩
        | .ok () =>
          return ⟨0, "", shown ++ (Entry.event (.written o.output)).text o.level⟩

/-- Runs a command line in a directory. -/
def runIn (d : Directory) (standardInput : String) (args : List String) : Outcome × Directory :=
  (runCommand .terminal (Directory.fileSystem standardInput) args).run d

end ImpAsm
