import Automata.Proofs.Naming
import Automata.Proofs.Path

namespace Automata

variable {α : Type}

namespace NFA

/-- Some path leads from the start state to the state, over edges of any labels. -/
def Accessible (n : NFA α) (j : Nat) : Prop :=
  ∃ i labels, n.start = some i ∧ n.Path i labels j

def accessibleNames (n : NFA α) : Set String :=
  {name | ∃ i, n.Accessible i ∧ n.nameOf i = name}

def accessibleFinals (n : NFA α) : Set String :=
  {name | ∃ i, n.Accessible i ∧ n.nameOf i = name ∧ n.isFinal i = true}

/-- The edges that leave accessible states, with the names of their ends. -/
def accessibleEdges (n : NFA α) : Set (String × Label α × String) :=
  {t | ∃ e ∈ n.edges, n.Accessible e.source ∧ t = (n.nameOf e.source, e.label, n.nameOf e.target)}

/-- The accessible parts agree by name. -/
structure AgreeByName (m n : NFA α) : Prop where
  alphabet : m.alphabet = n.alphabet
  start : m.startState?.map State.name = n.startState?.map State.name
  names : m.accessibleNames = n.accessibleNames
  finals : m.accessibleFinals = n.accessibleFinals
  edges : m.accessibleEdges = n.accessibleEdges

variable {m n : NFA α}

theorem Accessible.lt {i : Nat} (h : n.Accessible i) : i < n.size := by
  obtain ⟨start, _, hstart, hp⟩ := h
  exact hp.lt (n.start_lt start hstart)

theorem Accessible.path {i j : Nat} {labels : List (Label α)} (h : n.Accessible i)
    (hp : n.Path i labels j) : n.Accessible j := by
  obtain ⟨start, first, hstart, hfirst⟩ := h
  exact ⟨start, first ++ labels, hstart, hfirst.append hp⟩

theorem accessible_of_reached {word : List α} {j : Nat} (h : j ∈ n.reached word) :
    n.Accessible j := by
  obtain ⟨i, hi, labels, hp, _⟩ := h
  exact ⟨i, labels, hi, hp⟩

/-- An accessible state is known by its name. -/
theorem Accessible.eq_of_nameOf {i j : Nat} (hi : n.Accessible i) (hj : n.Accessible j)
    (h : n.nameOf i = n.nameOf j) : i = j :=
  Diagram.nameOf_inj hi.lt hj.lt h

end NFA

end Automata
