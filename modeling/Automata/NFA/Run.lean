import Automata.NFA.Closure

namespace Automata.NFA

variable {α : Type}

theorem mem_foldr_targets {n : NFA α} {p : Edge (Label α) → Bool} {i : Nat} :
    i ∈ n.edges.foldr (fun e ts => if p e then e.target :: ts else ts) [] ↔
      ∃ e ∈ n.edges, p e ∧ e.target = i := by
  rw [← Array.foldr_toList]
  simp only [← Array.mem_toList_iff]
  induction n.edges.toList with
  | nil => simp
  | cons e es ih =>
    rw [List.foldr_cons]
    simp only [List.mem_cons, or_and_right, exists_or, exists_eq_left, ← ih]
    by_cases hp : p e
    · rw [if_pos hp, List.mem_cons]
      simp only [hp, true_and]
      exact or_congr_left eq_comm
    · rw [if_neg hp]
      simp [hp]

variable [DecidableEq α]

/-- The targets of a state's edges with a label, before any closure. -/
def successors (n : NFA α) (i : Nat) (label : Label α) : StateSet :=
  .ofList (n.edges.foldr
    (fun e ts => if e.source = i && e.label = label then e.target :: ts else ts) [])

def step (n : NFA α) (s : StateSet) (a : α) : StateSet :=
  .ofList (n.edges.foldr
    (fun e ts => if e.label.reads a && s.contains e.source then e.target :: ts else ts) [])

/-- The closed set that a closed set becomes by reading a letter. -/
def follow (n : NFA α) (s : StateSet) (a : α) : StateSet :=
  n.closure (n.step s a).toList

theorem mem_step_lt {n : NFA α} {s : StateSet} {a : α} : ∀ i ∈ n.step s a, i < n.size := by
  intro i hi
  obtain ⟨e, he, _, rfl⟩ := mem_foldr_targets.mp (StateSet.mem_ofList.mp hi)
  exact (n.ends_lt e he).2

theorem mem_follow_lt {n : NFA α} {s : StateSet} {a : α} : ∀ i ∈ n.follow s a, i < n.size :=
  mem_closure_lt mem_step_lt

def run (n : NFA α) (s : StateSet) (word : List α) : StateSet :=
  word.foldl n.follow s

/-- Whether a closed set becomes, by reading a word, one that holds a final state. A set that has
become empty stays empty, so the rest of the word is not read then. -/
def acceptsFrom (n : NFA α) (s : StateSet) : List α → Bool
  | [] => s.toList.any n.isFinal
  | a :: word =>
    let next := n.follow s a
    if next.isEmpty then false else n.acceptsFrom next word

/-- Whether a word leads from the start state to a final state. Without a start state no word
does. -/
def accepts (n : NFA α) (word : List α) : Bool :=
  match n.start with
  | none => false
  | some i => n.acceptsFrom (n.closure [i]) word

end Automata.NFA
