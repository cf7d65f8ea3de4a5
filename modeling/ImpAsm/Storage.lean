namespace ImpAsm

/-- The symbol of a variable in the data section. -/
def variableLabel (x : String) : String := "var_" ++ x

/-- The symbol of a printed text in the data section. -/
def messageLabel (id : Nat) : String := "msg_" ++ toString id

/-- The variables of a program with their initial values, in the order of first declaration. -/
structure Variables where
  slots : List (String × Int32)
deriving DecidableEq

namespace Variables

def empty : Variables := ⟨[]⟩

def contains (v : Variables) (x : String) : Bool := v.slots.any (·.1 == x)

/-- Adds a variable at the end; one that is there already keeps its initial value. -/
def declare (v : Variables) (x : String) (initial : Int32) : Variables :=
  if v.contains x then v else ⟨v.slots ++ [(x, initial)]⟩

def initialValue? (v : Variables) (x : String) : Option Int32 :=
  (v.slots.find? (·.1 == x)).map (·.2)

def size (v : Variables) : Nat := v.slots.length

def isEmpty (v : Variables) : Bool := v.slots.isEmpty

end Variables

/-- The printed texts of a program, each one once, in the order of first use. -/
structure Messages where
  texts : List String
deriving DecidableEq

namespace Messages

def empty : Messages := ⟨[]⟩

/-- The number of a text: its place in the table, or the next free one. -/
def idOf (t : Messages) (s : String) : Nat := t.texts.idxOf s

/-- Adds a text at the end unless it is there already, and gives its number. -/
def register (t : Messages) (s : String) : Nat × Messages :=
  let id := t.idOf s
  (id, if id < t.texts.length then t else ⟨t.texts ++ [s]⟩)

def size (t : Messages) : Nat := t.texts.length

def isEmpty (t : Messages) : Bool := t.texts.isEmpty

/-- The texts with their symbols, in the order of first use. -/
def entries (t : Messages) : List (String × String) :=
  t.texts.zipIdx.map fun (s, id) => (messageLabel id, s)

end Messages

end ImpAsm
