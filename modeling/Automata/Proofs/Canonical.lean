import Automata.Proofs.Closure
import Automata.Sorted
import Mathlib.Data.List.Dedup

namespace Automata

namespace NFA

variable {α : Type} [DecidableEq α] {n : NFA α}

theorem mem_successors {i j : Nat} {label : Label α} :
    j ∈ n.successors i label ↔ ⟨i, label, j⟩ ∈ n.edges := by
  rw [successors, StateSet.mem_ofList, mem_foldr_targets]
  constructor
  · intro h
    obtain ⟨⟨s, l, t⟩, he, hp, rfl⟩ := h
    obtain ⟨rfl, rfl⟩ : s = i ∧ l = label := by simpa using hp
    exact he
  · intro h
    exact ⟨_, h, by simp, rfl⟩

theorem closureNamed_eq_ok_iff {name : String} {s : StateSet} :
    n.closureNamed name = .ok s ↔ ∃ i, n.index? name = some i ∧ n.closure [i] = s := by
  rw [closureNamed, Diagram.require]
  cases n.index? name with
  | none => simp [bind, Except.bind]
  | some i => simp [bind, Except.bind, pure, Except.pure]

end NFA

namespace StateSet

/-- How sets are built, each with the handles that go into it. Automata with different letters may
take part. -/
inductive Built : StateSet → Set Nat → Prop
  | empty : Built empty ∅
  | ofList (handles : List Nat) : Built (ofList handles) {i | i ∈ handles}
  | union {s t : StateSet} {X Y : Set Nat} : Built s X → Built t Y → Built (s.union t) (X ∪ Y)
  | successors {α : Type} [DecidableEq α] (n : NFA α) (i : Nat) (label : Label α) :
      Built (n.successors i label) {j | ⟨i, label, j⟩ ∈ n.edges}
  | step {α : Type} [DecidableEq α] (n : NFA α) (a : α) {s : StateSet} {X : Set Nat} :
      Built s X → Built (n.step s a) {j | ∃ i ∈ X, ⟨i, .symbol a, j⟩ ∈ n.edges}
  | closure {α : Type} [DecidableEq α] (n : NFA α) (handles : List Nat) :
      Built (n.closure handles) {j | ∃ i ∈ handles, n.EpsilonReaches i j}
  | closureOf {α : Type} [DecidableEq α] (n : NFA α) {s : StateSet} {X : Set Nat} :
      Built s X → Built (n.closure s.toList) {j | ∃ i ∈ X, n.EpsilonReaches i j}
  | closureNamed {α : Type} [DecidableEq α] (n : NFA α) {name : String} {s : StateSet} :
      n.closureNamed name = .ok s →
        Built s {j | ∃ i, n.index? name = some i ∧ n.EpsilonReaches i j}

/-- A built set holds what the set it was built for holds. -/
theorem Built.mem_iff {s : StateSet} {X : Set Nat} (h : Built s X) (x : Nat) : x ∈ s ↔ x ∈ X := by
  induction h generalizing x with
  | empty => simp
  | ofList handles => exact mem_ofList
  | union _ _ ihs iht => rw [mem_union, ihs, iht, Set.mem_union]
  | successors n i label => exact NFA.mem_successors
  | step n a _ ih => simp only [NFA.mem_step, ih, Set.mem_ofPred_eq]
  | closure n handles => exact NFA.mem_closure
  | closureOf n _ ih => simp only [NFA.mem_closure, ← mem_def, ih, Set.mem_ofPred_eq]
  | closureNamed n hs =>
    obtain ⟨i, hi, rfl⟩ := NFA.closureNamed_eq_ok_iff.mp hs
    simp [NFA.mem_closure, hi]

theorem union_comm (s t : StateSet) : s.union t = t.union s := by
  apply eq_of_mem_iff
  intro x
  rw [mem_union, mem_union, or_comm]

theorem union_assoc (s t u : StateSet) : (s.union t).union u = s.union (t.union u) := by
  apply eq_of_mem_iff
  intro x
  simp only [mem_union, or_assoc]

theorem union_self (s : StateSet) : s.union s = s := by
  apply eq_of_mem_iff
  intro x
  rw [mem_union, or_self]

theorem eq_iff_contains {s t : StateSet} : s = t ↔ ∀ x, s.contains x = t.contains x := by
  constructor
  · intro h x
    rw [h]
  · intro h
    apply eq_of_mem_iff
    intro x
    rw [← contains_iff, ← contains_iff, h]

theorem compare_eq_iff {s t : StateSet} : compare s t = .eq ↔ s = t := by
  change compare s.toList t.toList = .eq ↔ _
  rw [Std.compare_eq_iff_eq]
  exact ⟨ext, congrArg toList⟩

/-- Sorting and dropping repetitions comes to the same. -/
theorem toList_ofList (handles : List Nat) :
    (StateSet.ofList handles).toList = (sorted handles).dedup := by
  have hle : (sorted handles).dedup.Pairwise (· ≤ ·) := by
    apply List.Pairwise.sublist (List.dedup_sublist _)
    exact (sorted_pairwise handles).imp fun h => Nat.isLE_compare.mp h
  have hlt : (sorted handles).dedup.Pairwise (· < ·) :=
    hle.imp₂ (fun _ _ => Nat.lt_of_le_of_ne) (List.nodup_dedup _)
  apply (StateSet.ofList handles).ascending.eq_of_mem_iff hlt
  intro x
  rw [List.mem_dedup, mem_sorted]
  exact mem_ofList

/-- A set, however it is built, holds in ascending order exactly what went into it, and a binary
search tells so. Unions are those of sets, and two sets are equal, or equal in the order of sets,
exactly when they agree on every handle. -/
theorem built_canonical {s t : StateSet} {X Y : Set Nat} (hs : Built s X) (ht : Built t Y) :
    s.toList.Pairwise (· < ·) ∧
    (∀ x, s.contains x = true ↔ x ∈ X) ∧
    (∀ handles, (StateSet.ofList handles).toList = (sorted handles).dedup) ∧
    (∀ x, (s.union t).contains x = true ↔ x ∈ X ∨ x ∈ Y) ∧
    s.union t = t.union s ∧
    (∀ u, (s.union t).union u = s.union (t.union u)) ∧
    s.union s = s ∧
    (s = t ↔ ∀ x, s.contains x = t.contains x) ∧
    (compare s t = .eq ↔ ∀ x, s.contains x = t.contains x) := by
  refine ⟨s.ascending, ?_, toList_ofList, ?_, union_comm s t, union_assoc s t, union_self s,
    eq_iff_contains, compare_eq_iff.trans eq_iff_contains⟩
  · intro x
    rw [contains_iff, hs.mem_iff]
  · intro x
    rw [contains_iff, (hs.union ht).mem_iff, Set.mem_union]

/-- The targets of a step from a closure, a list with a repetition, and a union of both. -/
theorem built_canonical_eddy :
    ∃ s t : StateSet, ∃ X Y : Set Nat, Built s X ∧ Built t Y ∧
      s.toList = [2] ∧ t.toList = [0, 2, 9] ∧
      (∀ x, (s.union t).contains x = true ↔ x ∈ X ∨ x ∈ Y) ∧
      s.union t = t.union s ∧ compare s t ≠ .eq := by
  have hs := (Built.closure NFA.eddy [0]).step NFA.eddy 'a'
  have ht := Built.ofList [9, 0, 2, 9]
  obtain ⟨_, _, _, hunion, hcomm, _, _, _, hcompare⟩ := built_canonical hs ht
  refine ⟨_, _, _, _, hs, ht, by decide +kernel, by decide +kernel, hunion, hcomm, ?_⟩
  intro h
  have hagree := hcompare.mp h 0
  revert hagree
  decide +kernel

end StateSet

end Automata
