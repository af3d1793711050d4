import Automata.Text.Outline

namespace Automata

inductive Error where
  /-- A conversion was asked for before any start state was set. -/
  | missingStart
  | unknownState (name : String)
  /-- One more state was found than the limit allows. -/
  | limitExceeded (states max : Nat)
deriving DecidableEq

namespace Error

def message : Error → String
  | missingStart => "NFA has no start state"
  | unknownState name => "unknown state: " ++ name
  | limitExceeded states max =>
    "DFA state limit exceeded: " ++ literal states ++ " states (max: " ++ literal max ++ ")"

def outline : Error → Outline
  | missingStart => .atom "MissingStartState"
  | unknownState name => .wrapped "UnknownState" (.of name)
  | limitExceeded states max =>
    .record "StateLimitExceeded" [("states", .of states), ("max", .of max)]

end Error

end Automata
