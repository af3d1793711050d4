import Automata.Fault

namespace Automata

/-- One declaration for an automaton with labels in `ℓ`. States are given by name, and created
where needed, or by handle. -/
inductive Declaration (ℓ : Type) where
  | state (name : String)
  | startState (name : String)
  | finalState (name : String)
  | start (handle : Nat)
  | final (handle : Nat)
  | transition (source : String) (label : ℓ) (target : String)
  | edge (source : Nat) (label : ℓ) (target : Nat)
deriving DecidableEq

/-- The operations of a kind of automaton that declarations are made of. -/
structure Builder (σ ℓ : Type) where
  addState : σ → String → σ × Nat
  setStart : σ → Nat → Except Fault σ
  setFinal : σ → Nat → Except Fault σ
  addEdge : σ → Nat → ℓ → Nat → Except Fault (σ × Nat)

namespace Builder

variable {σ ℓ : Type} (b : Builder σ ℓ)

/-- The edge between two named states, both created where needed, the source first. -/
def addTransition (s : σ) (source : String) (label : ℓ) (target : String) :
    Except Fault (σ × Nat) :=
  let (s, i) := b.addState s source
  let (s, j) := b.addState s target
  b.addEdge s i label j

/-- Carries a declaration out, and answers with the handle it speaks of. -/
def declare (s : σ) : Declaration ℓ → Except Fault (σ × Nat)
  | .state name => .ok (b.addState s name)
  | .startState name => do
    let (s, i) := b.addState s name
    return (← b.setStart s i, i)
  | .finalState name => do
    let (s, i) := b.addState s name
    return (← b.setFinal s i, i)
  | .start i => do return (← b.setStart s i, i)
  | .final i => do return (← b.setFinal s i, i)
  | .transition source label target => b.addTransition s source label target
  | .edge source label target => b.addEdge s source label target

def extend (s : σ) (declarations : List (Declaration ℓ)) : Except Fault σ :=
  declarations.foldlM (fun s x => Prod.fst <$> b.declare s x) s

end Builder

end Automata
