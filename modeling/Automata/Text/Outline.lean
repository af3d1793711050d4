import Automata.Text.Literal

namespace Automata

inductive Outline where
  /-- A value without parts. -/
  | atom (text : String)
  | list (items : List Outline)
  | wrapped (name : String) (content : Outline)
  | record (name : String) (fields : List (String × Outline))

namespace Outline

def of {α : Type} [Literal α] (x : α) : Outline :=
  .atom (literal x)

def option : Option Outline → Outline
  | none => .atom "None"
  | some content => .wrapped "Some" content

mutual

def line : Outline → String
  | .atom text => text
  | .list items => "[" ++ ", ".intercalate (lines items) ++ "]"
  | .wrapped name content => name ++ "(" ++ content.line ++ ")"
  | .record name fields => name ++ " \x7b " ++ ", ".intercalate (fieldLines fields) ++ " \x7d"

def lines : List Outline → List String
  | [] => []
  | item :: items => item.line :: lines items

def fieldLines : List (String × Outline) → List String
  | [] => []
  | (name, value) :: fields => (name ++ ": " ++ value.line) :: fieldLines fields

end

/-- The start of a line, four blanks for each bracket that is still open. -/
def margin (depth : Nat) : String :=
  "\n" ++ String.ofList (List.replicate (4 * depth) ' ')

mutual

/-- The outline with each part on a line of its own, inside the given number of brackets. -/
def spread (depth : Nat) : Outline → String
  | .atom text => text
  | .list [] => "[]"
  | .list items => "[" ++ spreadItems (depth + 1) items ++ margin depth ++ "]"
  | .wrapped name content =>
    name ++ "(" ++ margin (depth + 1) ++ content.spread (depth + 1) ++ "," ++ margin depth ++ ")"
  | .record name fields =>
    name ++ " \x7b" ++ spreadFields (depth + 1) fields ++ margin depth ++ "\x7d"

def spreadItems (depth : Nat) : List Outline → String
  | [] => ""
  | item :: items => margin depth ++ item.spread depth ++ "," ++ spreadItems depth items

def spreadFields (depth : Nat) : List (String × Outline) → String
  | [] => ""
  | (name, value) :: fields =>
    margin depth ++ name ++ ": " ++ value.spread depth ++ "," ++ spreadFields depth fields

end

def render (wide : Bool) (outline : Outline) : String :=
  if wide then outline.spread 0 else outline.line

end Outline

end Automata
