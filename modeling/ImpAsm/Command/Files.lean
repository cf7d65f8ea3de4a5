namespace ImpAsm

/-- How a command reaches its input and output. A failure is told in words. -/
structure FileSystem (m : Type → Type) where
  standardInput : m (Except String String)
  read : String → m (Except String String)
  write : String → String → m (Except String Unit)

def noSuchFile : String := "No such file or directory (os error 2)"

/-- A directory without subdirectories: its files and their contents. -/
structure Directory where
  files : List (String × String)
deriving DecidableEq

namespace Directory

/-- The file at the end of the parts of a path. Empty parts and dots before it stay in the
directory; any other part would name a directory, and there is none. -/
def lastPart? : List String → Option String
  | [] => none
  | [name] => if name ∈ ["", ".", ".."] then none else some name
  | part :: parts => if part ∈ ["", "."] then lastPart? parts else none

/-- The file that a path means; a path from the root leads out of the directory. -/
def fileName? (path : String) : Option String :=
  if path.toList.head? = some '/' then none else lastPart? (path.splitOn "/")

def read? (d : Directory) (path : String) : Option String :=
  (fileName? path).bind fun name => d.files.lookup name

/-- Replaces the contents of a file, or adds the file. -/
def put (d : Directory) (name contents : String) : Directory :=
  if d.files.any (·.1 == name) then
    ⟨d.files.map fun f => if f.1 = name then (name, contents) else f⟩
  else ⟨d.files ++ [(name, contents)]⟩

def write? (d : Directory) (path contents : String) : Option Directory :=
  (fileName? path).map fun name => d.put name contents

end Directory

/-- The file system of a single directory. -/
def Directory.fileSystem (standardInput : String) : FileSystem (StateM Directory) where
  standardInput := return .ok standardInput
  read path := do
    match (← get).read? path with
    | some contents => return .ok contents
    | none => return .error noSuchFile
  write path contents := do
    match (← get).write? path contents with
    | some d =>
      set d
      return .ok ()
    | none => return .error noSuchFile

end ImpAsm
