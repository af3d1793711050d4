import Automata.Text.Outline

namespace Automata

/-- A state is known by its name: the mark does not count when states are compared. -/
structure State where
  name : String
  accepting : Bool := false

namespace State

/-- Marks a state final. The mark is never taken away. -/
def accept (s : State) : State :=
  { s with accepting := true }

instance : BEq State where
  beq s t := s.name == t.name

instance : Hashable State where
  hash s := hash s.name

instance : LawfulHashable State where
  hash_eq _ _ h := congrArg (hash : String → UInt64) (eq_of_beq h)

instance : ToString State where
  toString := State.name

def outline (s : State) : Outline :=
  .record "State" [("name", .of s.name), ("accepting", .of s.accepting)]

end State

end Automata
