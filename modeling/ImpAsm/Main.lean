import ImpAsm.Command.Run

namespace ImpAsm

/-- What went wrong with a file, in the words of the operating system where it has some. -/
def fileFailure : IO.Error → String
  | .noFileOrDirectory .. => noSuchFile
  | e => toString e

/-- Runs an action on files and keeps its failure as a value. -/
def attempt {α : Type} (action : IO α) : IO (Except String α) := do
  match ← action.toBaseIO with
  | .ok a => return .ok a
  | .error e => return .error (fileFailure e)

partial def readLines (input : IO.FS.Stream) (text : String) : IO String := do
  let line ← input.getLine
  if line.isEmpty then return text else readLines input (text ++ line)

/-- The files of the machine. -/
def machineFiles : FileSystem IO where
  standardInput := attempt do readLines (← IO.getStdin) ""
  read path := attempt (IO.FS.readFile path)
  write path contents := attempt (IO.FS.writeFile path contents)

end ImpAsm

def main (args : List String) : IO UInt32 := do
  let outcome ← ImpAsm.runCommand .terminal ImpAsm.machineFiles args
  IO.print outcome.output
  IO.eprint outcome.errors
  return UInt32.ofNat outcome.status
