import Automata.DFA.Run

namespace Automata

inductive Level where
  | trace
  | debug
  | info
  | warn
deriving DecidableEq

inductive Event (α : Type) where
  /-- The conversion of an automaton with so many states and letters begins. -/
  | started (states letters : Nat)
  /-- A set of states has become a state of the result. -/
  | discovered (name : String) (accepting : Bool)
  /-- So many sets are known, of which so many still wait for their edges. -/
  | progress (discovered pending : Nat)
  | transition (source : String) (letter : α) (target : String)
  /-- The conversion ends because of the limit. -/
  | limitReached (max : Nat)
  /-- The conversion ends with a result. -/
  | finished (states edges : Nat)
deriving DecidableEq

namespace Event

variable {α : Type}

def level : Event α → Level
  | started .. => .debug
  | discovered .. => .debug
  | progress .. => .info
  | transition .. => .trace
  | limitReached _ => .warn
  | finished .. => .debug

def message [Literal α] : Event α → String
  | started .. => "SubsetConstruction::run"
  | discovered .. => "Discovered meta-state"
  | progress .. => "Subset construction progress"
  | transition source a target => arrow source a target
  | limitReached _ => "DFA state limit exceeded, aborting subset construction"
  | finished .. => "Subset construction finished"

end Event

end Automata
