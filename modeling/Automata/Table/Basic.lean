import Automata.DFA.Run

namespace Automata

structure Row where
  state : String
  start : Bool
  accepting : Bool
  /-- The names of the targets, in the order of the columns. -/
  targets : List (Option String)
deriving DecidableEq

structure Table (α : Type) where
  alphabet : List α
  rows : List Row
deriving DecidableEq

namespace Row

def outline (r : Row) : Outline :=
  .record "TransitionRow" [
    ("state", .of r.state),
    ("start", .of r.start),
    ("accepting", .of r.accepting),
    ("targets", .list (r.targets.map fun t => .option (t.map .of)))]

end Row

namespace Table

variable {α : Type}

/-- The first row of the state with a name. -/
def row? (t : Table α) (state : String) : Option Row :=
  t.rows.find? fun r => r.state = state

/-- The target of a state on a letter, from the first column that has the letter. -/
def target? [DecidableEq α] (t : Table α) (state : String) (a : α) : Option String := do
  let column ← t.alphabet.findIdx? (· = a)
  let row ← t.row? state
  (row.targets[column]?).join

def outline [Literal α] (t : Table α) : Outline :=
  .record "TransitionTable" [
    ("alphabet", .list (t.alphabet.map .of)),
    ("rows", .list (t.rows.map Row.outline))]

end Table

/-- The table of an automaton: its states in order of creation, its letters in alphabet order. -/
def DFA.table {α : Type} [DecidableEq α] (d : DFA α) : Table α where
  alphabet := d.alphabet
  rows := d.handles.filterMap fun i => (d.state? i).map fun s => {
    state := s.name
    start := d.start = some i
    accepting := s.accepting
    targets := d.alphabet.map fun a => ((d.target? i a).bind d.state?).map State.name }

end Automata
