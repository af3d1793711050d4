import Automata.Proofs.BreadthFirst
import Automata.Proofs.Enumeration
import Automata.Proofs.Table
import Mathlib.Data.List.TFAE
import Mathlib.Tactic.TFAE

namespace Automata.DFA

variable {α : Type} {d : DFA α}

def pairs (d : DFA α) : List (Nat × α) :=
  Construction.layout d.alphabet d.size

theorem mem_pairs_iff {i : Nat} {a : α} : (i, a) ∈ d.pairs ↔ i < d.size ∧ a ∈ d.alphabet :=
  Construction.mem_layout

theorem length_pairs (d : DFA α) : d.pairs.length = d.size * d.alphabet.length :=
  Construction.length_layout _ _

theorem keys_subset_pairs (d : DFA α) : d.edges.toList.map Edge.key ⊆ d.pairs := by
  intro p hp
  obtain ⟨e, he, rfl⟩ := List.mem_map.mp hp
  have hmem := Array.mem_toList_iff.mp he
  exact mem_pairs_iff.mpr ⟨(d.ends_lt e hmem).1, d.label_mem e hmem⟩

variable [DecidableEq α]

/-- A pair stands before those of later states, and before those of its state's later letters. -/
def PairBefore (d : DFA α) (p q : Nat × α) : Prop :=
  p.1 < q.1 ∨ p.1 = q.1 ∧ d.alphabet.idxOf p.2 < d.alphabet.idxOf q.2

theorem PairBefore.asymm {p q : Nat × α} (h : d.PairBefore p q) : ¬ d.PairBefore q p := by
  unfold PairBefore at h ⊢
  omega

theorem pairs_pairwise (d : DFA α) : d.pairs.Pairwise d.PairBefore :=
  Construction.layout_pairwise d.alphabet_nodup d.size

theorem pairs_nodup (d : DFA α) : d.pairs.Nodup := by
  apply d.pairs_pairwise.imp
  rintro p _ h rfl
  exact h.asymm h

/-- The first gap is the first pair without a target. -/
theorem gap?_eq_find? (d : DFA α) :
    d.gap? = (d.pairs.find? fun p => (d.target? p.1 p.2).isNone).map
      fun p => ⟨p.1, d.nameOf p.1, p.2⟩ := by
  have hstate : ∀ i ∈ d.handles, ((d.state? i).bind fun s => d.alphabet.findSome? fun a =>
      if (d.target? i a).isNone then some (⟨i, s.name, a⟩ : Gap α) else none) =
      (d.alphabet.find? fun a => (d.target? i a).isNone).map fun a => ⟨i, d.nameOf i, a⟩ := by
    intro i hi
    obtain ⟨s, hs⟩ := Diagram.state?_of_lt (List.mem_range.mp hi)
    rw [hs, Option.bind_some, List.find?_eq_findSome?_guard, List.map_findSome?,
      Diagram.nameOf_eq hs]
    congr 1
    funext a
    cases ht : d.target? i a <;> simp [Option.guard, ht]
  rw [gap?, ← List.head?_filterMap, List.filterMap_congr hstate, List.head?_filterMap, pairs,
    Construction.layout, List.find?_flatMap, List.map_findSome?]
  congr 1
  funext i
  rw [Function.comp_apply, List.find?_map, Option.map_map]
  rfl

/-- A state has no edge for a letter, and all pairs of a state and a letter that stand before these
two have one. -/
structure FirstGap (d : DFA α) (g : Gap α) : Prop where
  handle_lt : g.handle < d.size
  name_eq : g.name = d.nameOf g.handle
  letter_mem : g.letter ∈ d.alphabet
  missing : d.target? g.handle g.letter = none
  present : ∀ i < d.size, ∀ a ∈ d.alphabet,
    i < g.handle ∨ i = g.handle ∧ d.alphabet.idxOf a < d.alphabet.idxOf g.letter →
    ∃ t, d.target? i a = some t

/-- The gap that is found is the first in the order of states and letters. -/
theorem gap?_eq_some_iff {g : Gap α} : d.gap? = some g ↔ d.FirstGap g := by
  have hpair : d.gap? = some g ↔ g.name = d.nameOf g.handle ∧
      d.pairs.find? (fun p => (d.target? p.1 p.2).isNone) = some (g.handle, g.letter) := by
    rw [gap?_eq_find?, Option.map_eq_some_iff]
    constructor
    · rintro ⟨p, hp, rfl⟩
      exact ⟨rfl, hp⟩
    · rintro ⟨hname, hp⟩
      exact ⟨_, hp, by rw [← hname]⟩
  rw [hpair, find?_eq_some_iff_least PairBefore.asymm d.pairs_pairwise, mem_pairs_iff]
  simp only [Prod.forall, mem_pairs_iff, Option.isNone_iff_eq_none, Option.isNone_eq_false_iff,
    Option.isSome_iff_exists, and_imp]
  constructor
  · rintro ⟨hname, ⟨hlt, hmem⟩, hnone, hfirst⟩
    exact ⟨hlt, hname, hmem, hnone, fun i hi a ha => hfirst i a hi ha⟩
  · intro h
    exact ⟨h.name_eq, ⟨h.handle_lt, h.letter_mem⟩, h.missing, fun i a hi ha => h.present i hi a ha⟩

theorem isComplete_iff :
    d.isComplete = true ↔ ∀ i < d.size, ∀ a ∈ d.alphabet, ∃ t, d.target? i a = some t := by
  rw [isComplete, Option.isNone_iff_eq_none, gap?_eq_none_iff]

theorem requireComplete_eq_error_iff {g : Gap α} :
    d.requireComplete = .error g ↔ d.FirstGap g := by
  rw [← gap?_eq_some_iff, requireComplete]
  cases d.gap? <;> simp

theorem requireComplete_eq_ok_iff : d.requireComplete = .ok () ↔ d.isComplete = true := by
  unfold requireComplete isComplete
  cases d.gap? <;> simp

/-- The edges are as many as the pairs exactly when no pair is missing among them. -/
theorem edges_size_eq_iff :
    d.edges.size = d.size * d.alphabet.length ↔ d.pairs ⊆ d.edges.toList.map Edge.key := by
  have hkeys := List.subperm_of_subset d.keys_nodup d.keys_subset_pairs
  have hlength : (d.edges.toList.map Edge.key).length = d.edges.size := by simp
  rw [← d.length_pairs, ← hlength]
  constructor
  · intro hsize
    exact (hkeys.perm_of_length_le (Nat.le_of_eq hsize.symm)).symm.subset
  · intro hall
    exact Nat.le_antisymm hkeys.length_le (List.subperm_of_subset d.pairs_nodup hall).length_le

theorem isComplete_iff_edges_size :
    d.isComplete = true ↔ d.edges.size = d.size * d.alphabet.length := by
  rw [isComplete_iff, edges_size_eq_iff]
  simp only [List.subset_def, Prod.forall, mem_pairs_iff, and_imp, mem_keys_iff,
    Option.isSome_iff_exists]
  exact ⟨fun h i a hi ha => h i hi a ha, fun h i hi a ha => h i a hi ha⟩

theorem isComplete_iff_table :
    d.isComplete = true ↔ ∀ row ∈ d.table.rows, none ∉ row.targets := by
  rw [isComplete_iff, table_rows]
  simp [rowAt, Diagram.handles, Option.ne_none_iff_exists']

/-- Four ways to ask whether an automaton is complete have one answer: the search for a gap, the
demand that there is none, the number of edges, and the table. The demand fails with the first
pair of a state and a letter that has no edge, by states and then by the places of the letters,
and its text names that state and that letter. -/
theorem completeness_views [Literal α] (d : DFA α) :
    [d.isComplete = true, d.requireComplete = .ok (),
      d.edges.size = d.size * d.alphabet.length,
      ∀ row ∈ d.table.rows, none ∉ row.targets].TFAE ∧
    (∀ g, d.requireComplete = .error g ↔ d.FirstGap g) ∧
    ∀ g, d.requireComplete = .error g → g.message = "DFA is not complete. State " ++
      d.nameOf g.handle ++ " does not have a transition for letter " ++ literal g.letter := by
  refine ⟨?_, fun g => requireComplete_eq_error_iff, ?_⟩
  · tfae_have 1 ↔ 2 := requireComplete_eq_ok_iff.symm
    tfae_have 1 ↔ 3 := isComplete_iff_edges_size
    tfae_have 1 ↔ 4 := isComplete_iff_table
    tfae_finish
  · intro g hg
    rw [← (requireComplete_eq_error_iff.mp hg).name_eq]
    rfl

/-- A letter of the alphabet that no edge has is missing everywhere, and the letter that came
first is reported. -/
example : (build ['b'] [.startState "p", .transition "p" 'a' "p"]).toOption.bind DFA.gap? =
    some ⟨0, "p", 'b'⟩ := by decide +kernel

end Automata.DFA
