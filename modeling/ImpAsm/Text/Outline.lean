namespace ImpAsm

/-- A value to be shown over several lines. -/
inductive Outline where
  | atom (text : String)
  | list (items : List Outline)
  | tuple (name : String) (items : List Outline)
  | record (name : String) (fields : List (String × Outline))

namespace Outline

/-- Four columns for each level. -/
def indent (level : Nat) : String := String.ofList (List.replicate (4 * level) ' ')

mutual

/-- The lines of a value at a level, with a text before its first line and one after its last.
Parts stand one level deeper and end with a comma; an empty list stays on one line. -/
def lines (level : Nat) (before after : String) : Outline → List String
  | atom text => [indent level ++ before ++ text ++ after]
  | list [] => [indent level ++ before ++ "[]" ++ after]
  | list items =>
    [indent level ++ before ++ "["] ++ itemLines (level + 1) items ++ [indent level ++ "]" ++ after]
  | tuple name items =>
    [indent level ++ before ++ name ++ "("] ++ itemLines (level + 1) items ++
      [indent level ++ ")" ++ after]
  | record name fields =>
    [indent level ++ before ++ name ++ " \x7b"] ++ fieldLines (level + 1) fields ++
      [indent level ++ "\x7d" ++ after]

def itemLines (level : Nat) : List Outline → List String
  | [] => []
  | item :: items => lines level "" "," item ++ itemLines level items

def fieldLines (level : Nat) : List (String × Outline) → List String
  | [] => []
  | (name, value) :: fields => lines level (name ++ ": ") "," value ++ fieldLines level fields

end

/-- The value as text, each line ended by a line feed. -/
def text (o : Outline) : String :=
  String.join ((o.lines 0 "" "").map (· ++ "\n"))

end Outline

end ImpAsm
