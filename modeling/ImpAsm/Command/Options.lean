import ImpAsm.Event

namespace ImpAsm

/-- What the command line asks of a compilation. The input `-` is the standard input. -/
structure Options where
  input : String
  output : String
  dumpTokens : Bool
  dumpTree : Bool
  verbosity : Nat
deriving DecidableEq

/-- Each step of verbosity shows one more level of events, from warnings to everything. -/
def Options.level (o : Options) : Level :=
  match o.verbosity with
  | 0 => .warn
  | 1 => .info
  | 2 => .debug
  | _ => .trace

def defaultOutput : String := "output.asm"

/-- What a command line asks for. -/
inductive Request where
  | help
  | version
  | misuse
  | compile (options : Options)
deriving DecidableEq

/-- The options read so far. -/
structure Draft where
  input : Option String
  output : Option String
  dumpTokens : Bool
  dumpTree : Bool
  verbosity : Nat
deriving DecidableEq

namespace Draft

def empty : Draft := ⟨none, none, false, false, 0⟩

/-- An input has to be given. -/
def finish (d : Draft) : Request :=
  match d.input with
  | none => .misuse
  | some input =>
    .compile ⟨input, d.output.getD defaultOutput, d.dumpTokens, d.dumpTree, d.verbosity⟩

/-- There is one input. -/
def setInput? (d : Draft) (s : String) : Option Draft :=
  if d.input.isSome then none else some { d with input := some s }

/-- The output may be set once, and not to an empty path. -/
def setOutput? (d : Draft) (s : String) : Option Draft :=
  if d.output.isSome || s.isEmpty then none else some { d with output := some s }

def more (d : Draft) : Draft := { d with verbosity := d.verbosity + 1 }

end Draft

/-- What one argument leads to: an answer at once, or a draft to go on with, which may still
wait for the output path. -/
inductive ArgStep where
  | stop (r : Request)
  | go (d : Draft)
  | awaitOutput (d : Draft)

def ArgStep.ofDraft? : Option Draft → ArgStep
  | none => stop .misuse
  | some d => go d

/-- A group of one-letter options behind a single dash; an output path may follow its letter. -/
def shortOptions (d : Draft) : List Char → ArgStep
  | [] => .go d
  | 'h' :: _ => .stop .help
  | 'V' :: _ => .stop .version
  | 'v' :: cs => shortOptions d.more cs
  | ['o'] => .awaitOutput d
  | 'o' :: '=' :: cs => .ofDraft? (d.setOutput? (String.ofList cs))
  | 'o' :: cs => .ofDraft? (d.setOutput? (String.ofList cs))
  | _ => .stop .misuse

/-- An option behind two dashes, with the value that an equals sign joins to it. -/
def longOption (d : Draft) (name : String) (value : Option String) : ArgStep :=
  match name, value with
  | "help", none => .stop .help
  | "version", none => .stop .version
  | "verbose", none => .go d.more
  | "dump-tokens", none => if d.dumpTokens then .stop .misuse else .go { d with dumpTokens := true }
  | "dump-ast", none => if d.dumpTree then .stop .misuse else .go { d with dumpTree := true }
  | "output", none => .awaitOutput d
  | "output", some path => .ofDraft? (d.setOutput? path)
  | _, _ => .stop .misuse

/-- Splits at the first equals sign. -/
def splitValue (cs : List Char) : String × Option String :=
  match cs.dropWhile (· ≠ '=') with
  | [] => (String.ofList cs, none)
  | _ :: value => (String.ofList (cs.takeWhile (· ≠ '=')), some (String.ofList value))

/-- One argument before `--`; a lone dash is an input. -/
def argument (d : Draft) (s : String) : ArgStep :=
  match s.toList with
  | '-' :: '-' :: cs =>
    let (name, value) := splitValue cs
    longOption d name value
  | '-' :: c :: cs => shortOptions d (c :: cs)
  | _ => .ofDraft? (d.setInput? s)

/-- Whether an argument can be the value of the option before it. -/
def isValue (s : String) : Bool := s.toList.head? ≠ some '-' || s = "-"

/-- Behind `--` there are only inputs. -/
def readInputs (d : Draft) : List String → Request
  | [] => d.finish
  | s :: args =>
    match d.setInput? s with
    | none => .misuse
    | some d => readInputs d args

/-- Reads arguments from left to right; the first that settles the request ends the reading. -/
def readArguments (d : Draft) : List String → Request
  | [] => d.finish
  | "--" :: args => readInputs d args
  | s :: args =>
    match argument d s, args with
    | .stop r, _ => r
    | .go d, args => readArguments d args
    | .awaitOutput _, [] => .misuse
    | .awaitOutput d, path :: args =>
      if isValue path then
        match d.setOutput? path with
        | none => .misuse
        | some d => readArguments d args
      else .misuse

def Request.ofArguments (args : List String) : Request := readArguments .empty args

end ImpAsm
