import Automata.CanonicalName
import Automata.Error
import Automata.Roster
import Automata.StateSet.Basic

namespace Automata

structure Edge (ℓ : Type) where
  source : Nat
  label : ℓ
  target : Nat
deriving DecidableEq

/-- The start state and both ends of every edge are states of the diagram. -/
structure Diagram (ℓ : Type) where
  roster : Roster
  start : Option Nat
  edges : Array (Edge ℓ)
  start_lt : ∀ i, start = some i → i < roster.size
  ends_lt : ∀ e ∈ edges, e.source < roster.size ∧ e.target < roster.size

namespace Diagram

variable {ℓ : Type}

def empty : Diagram ℓ where
  roster := .empty
  start := none
  edges := #[]
  start_lt := by simp
  ends_lt := by simp

def size (d : Diagram ℓ) : Nat :=
  d.roster.size

def states (d : Diagram ℓ) : List State :=
  d.roster.states.toList

def handles (d : Diagram ℓ) : List Nat :=
  List.range d.size

def state? (d : Diagram ℓ) (i : Nat) : Option State :=
  d.roster.state? i

def stateAt (d : Diagram ℓ) (i : Nat) : Except Fault State :=
  match d.state? i with
  | some s => .ok s
  | none => .error (.stateOutside d.size i)

/-- The name of a state; a handle that no state has goes without one. -/
def nameOf (d : Diagram ℓ) (i : Nat) : String :=
  ((d.state? i).map State.name).getD ""

def index? (d : Diagram ℓ) (name : String) : Option Nat :=
  d.roster.index? name

/-- The handle of the state with a name, which the caller expects to be there. -/
def require (d : Diagram ℓ) (name : String) : Except Error Nat :=
  match d.index? name with
  | some i => .ok i
  | none => .error (.unknownState name)

def startState? (d : Diagram ℓ) : Option State :=
  d.start.bind d.state?

def finalStates (d : Diagram ℓ) : List State :=
  d.states.filter State.accepting

def isFinal (d : Diagram ℓ) (i : Nat) : Bool :=
  (d.state? i).any State.accepting

/-- Whether a set holds a final state. The members are looked at in ascending order up to the
first final one. -/
def anyFinal (d : Diagram ℓ) (s : StateSet) : Except Fault Bool :=
  go s.toList
where
  go : List Nat → Except Fault Bool
    | [] => .ok false
    | i :: is => do if (← d.stateAt i).accepting then return true else go is

def memberNames (d : Diagram ℓ) (s : StateSet) : Except Fault (List String) := do
  return sorted (← s.toList.mapM fun i => State.name <$> d.stateAt i)

def setName (d : Diagram ℓ) (s : StateSet) : Except Fault String :=
  canonicalName <$> d.memberNames s

def withRoster (d : Diagram ℓ) (r : Roster) (h : d.size ≤ r.size) : Diagram ℓ where
  roster := r
  start := d.start
  edges := d.edges
  start_lt i hi := Nat.lt_of_lt_of_le (d.start_lt i hi) h
  ends_lt e he :=
    ⟨Nat.lt_of_lt_of_le (d.ends_lt e he).1 h, Nat.lt_of_lt_of_le (d.ends_lt e he).2 h⟩

def withStart (d : Diagram ℓ) (i : Nat) (h : i < d.size) : Diagram ℓ :=
  { d with start := some i, start_lt := fun _ hj => Option.some.inj hj ▸ h }

def accept (d : Diagram ℓ) (i : Nat) : Diagram ℓ :=
  d.withRoster (d.roster.accept i) (by simp [size])

def withEdges (d : Diagram ℓ) (edges : Array (Edge ℓ))
    (h : ∀ e ∈ edges, e.source < d.size ∧ e.target < d.size) : Diagram ℓ :=
  { d with edges := edges, ends_lt := h }

def addState (d : Diagram ℓ) (name : String) : Diagram ℓ × Nat :=
  (d.withRoster (d.roster.add name).1 (d.roster.size_le_add name), (d.roster.add name).2)

end Diagram

end Automata
