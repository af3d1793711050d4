import Automata.DFA.Basic

namespace Automata

def arrow {α : Type} [Literal α] (source : String) (a : α) (target : String) : String :=
  source ++ " --- " ++ literal a ++ " --> " ++ target

structure Gap (α : Type) where
  handle : Nat
  name : String
  letter : α
deriving DecidableEq

def Gap.message {α : Type} [Literal α] (g : Gap α) : String :=
  "DFA is not complete. State " ++ g.name ++ " does not have a transition for letter " ++
    literal g.letter

namespace DFA

variable {α : Type} [DecidableEq α]

def targetNamed (d : DFA α) (name : String) (a : α) : Except Error (Option State) := do
  return (d.target? (← d.require name) a).bind d.state?

def run (d : DFA α) (i : Nat) (word : List α) : Option Nat :=
  word.foldlM d.target? i

/-- Whether a word leads from the start state to a final state. Without a start state no word
does, nor does a word that meets a missing edge. -/
def accepts (d : DFA α) (word : List α) : Bool :=
  match d.start.bind (d.run · word) with
  | none => false
  | some i => d.isFinal i

/-- The first gap, by the order of states and then of letters. -/
def gap? (d : DFA α) : Option (Gap α) :=
  d.handles.findSome? fun i => (d.state? i).bind fun s => d.alphabet.findSome? fun a =>
    if (d.target? i a).isNone then some ⟨i, s.name, a⟩ else none

def isComplete (d : DFA α) : Bool :=
  d.gap?.isNone

def requireComplete (d : DFA α) : Except (Gap α) Unit :=
  match d.gap? with
  | none => .ok ()
  | some g => .error g

omit [DecidableEq α] in
def outline [Literal α] (d : DFA α) : Outline :=
  .record "DFA" [
    ("alphabet", .list (d.alphabet.map .of)),
    ("state_count", .of d.size),
    ("states", .list (d.states.map fun s => .of s.name)),
    ("initial_state", .option (d.startState?.map fun s => .of s.name)),
    ("final_states", .list (d.finalStates.map fun s => .of s.name)),
    ("edge_count", .of d.edges.size),
    ("edges", .list (d.edges.toList.map fun e =>
      .of (arrow (d.nameOf e.source) e.label (d.nameOf e.target))))]

end DFA

end Automata
