import Automata.NFA.Basic
import Automata.Search

namespace Automata.NFA

variable {α : Type} [DecidableEq α]

def noteEpsilon (table : Array (List Nat)) (e : Edge (Label α)) : Array (List Nat) :=
  if e.label = .epsilon then table.modify e.source (e.target :: ·) else table

/-- For each state the targets of its epsilon edges, the latest edge first. -/
def epsilonTable (n : NFA α) : Array (List Nat) :=
  n.edges.foldl noteEpsilon (Array.replicate n.size [])

/-- A table entry holds what was noted for its state, in front of what it held before. -/
theorem foldl_noteEpsilon (es : List (Edge (Label α))) (table : Array (List Nat)) (i : Nat) :
    (es.foldl noteEpsilon table)[i]? =
      table[i]?.map fun ts =>
        ((es.filter fun e => e.source = i ∧ e.label = .epsilon).map Edge.target).reverse ++ ts := by
  induction es generalizing table with
  | nil => cases h : table[i]? <;> simp [h]
  | cons e es ih =>
    rw [List.foldl_cons, ih]
    unfold noteEpsilon
    by_cases hl : e.label = .epsilon
    · by_cases hs : e.source = i
      · subst hs
        cases h : table[e.source]? <;> simp [hl, h, Array.getElem?_modify]
      · simp [hl, hs, Array.getElem?_modify]
    · simp [hl]

def epsilonTargets (n : NFA α) (i : Nat) : List Nat :=
  ((n.edges.toList.filter fun e => e.source = i ∧ e.label = .epsilon).map Edge.target).reverse

/-- The table read once from the edges holds the epsilon targets of every state. -/
theorem epsilonTable_getD (n : NFA α) (i : Nat) :
    (n.epsilonTable[i]?).getD [] = n.epsilonTargets i := by
  rw [epsilonTable, ← Array.foldl_toList, foldl_noteEpsilon, Array.getElem?_replicate]
  split
  · simp [epsilonTargets]
  · rename_i hi
    symm
    simp only [Option.map_none, Option.getD_none, epsilonTargets, List.reverse_eq_nil_iff,
      List.map_eq_nil_iff, List.filter_eq_nil_iff]
    intro e he hs
    simp only [decide_eq_true_eq] at hs
    exact hi (hs.1 ▸ (n.ends_lt e (Array.mem_toList_iff.mp he)).1)

theorem mem_epsilonTargets {n : NFA α} {i t : Nat} :
    t ∈ n.epsilonTargets i ↔ ⟨i, .epsilon, t⟩ ∈ n.edges := by
  simp only [epsilonTargets, List.mem_reverse, List.mem_map, List.mem_filter, decide_eq_true_eq,
    Array.mem_toList_iff]
  constructor
  · rintro ⟨⟨s, l, t⟩, ⟨he, rfl, rfl⟩, rfl⟩
    exact he
  · exact fun h => ⟨_, ⟨h, rfl, rfl⟩, rfl⟩

theorem epsilonTargets_lt {n : NFA α} {i : Nat} : ∀ t ∈ n.epsilonTargets i, t < n.size :=
  fun _ ht => (n.ends_lt _ (mem_epsilonTargets.mp ht)).2

/-- The handles, each once, followed by what they reach over epsilon edges. -/
def extendByEpsilon (n : NFA α) (handles : List Nat) : List Nat :=
  let table := n.epsilonTable
  Search.reach (fun i => (table[i]?).getD []) n.size
    (fun i => n.epsilonTable_getD i ▸ epsilonTargets_lt) handles

/-- What the handles reach over epsilon edges, as a set. -/
def closure (n : NFA α) (handles : List Nat) : StateSet :=
  .ofList (n.extendByEpsilon handles)

theorem mem_closure_lt {n : NFA α} {handles : List Nat} (h : ∀ i ∈ handles, i < n.size) :
    ∀ i ∈ n.closure handles, i < n.size := by
  intro i hi
  rcases Search.mem_reach (StateSet.mem_ofList.mp hi) with hi | hi
  · exact h i hi
  · exact hi

theorem mem_closure_start_lt {n : NFA α} {i : Nat} (h : n.start = some i) :
    ∀ j ∈ n.closure [i], j < n.size :=
  mem_closure_lt fun _ hj => List.mem_singleton.mp hj ▸ n.start_lt i h

def closureNamed (n : NFA α) (name : String) : Except Error StateSet := do
  return n.closure [← n.require name]

end Automata.NFA
