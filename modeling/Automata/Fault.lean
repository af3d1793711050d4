import Automata.Text.Literal

namespace Automata

inductive Kind where
  | nfa
  | dfa
deriving DecidableEq

def Kind.name : Kind → String
  | nfa => "NFA"
  | dfa => "DFA"

inductive Fault where
  /-- The start state is set to a handle that no state has. -/
  | startOutside (kind : Kind) (handle : Nat)
  /-- A state is asked for by a handle that none of the `size` states has. -/
  | stateOutside (size handle : Nat)
  /-- An edge is to join handles that are not both states. -/
  | edgeOutside
  /-- A new state is to have a name that is taken. -/
  | nameTaken (name : String)
  /-- The successors of a set are asked for before the set was discovered. -/
  | undiscovered
deriving DecidableEq

def Fault.message : Fault → String
  | startOutside kind handle =>
    "State NodeIndex(" ++ literal handle ++ ") is not part of the " ++ kind.name
  | stateOutside size handle =>
    "index out of bounds: the len is " ++ literal size ++ " but the index is " ++ literal handle
  | edgeOutside => "Graph::add_edge: node indices out of bounds"
  | nameTaken name => "State " ++ name ++ " is already part of the DFA"
  | undiscovered => "The set is not discovered yet"

end Automata
