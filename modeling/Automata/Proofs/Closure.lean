import Automata.NFA.Run
import Automata.Proofs.Search
import Automata.Proofs.StateSet

namespace Automata.NFA

variable {α : Type}

/-- Reachable over epsilon edges alone, none included. -/
def EpsilonReaches (n : NFA α) : Nat → Nat → Prop :=
  Relation.ReflTransGen fun i t => ⟨i, .epsilon, t⟩ ∈ n.edges

/-- Nothing outside the set is reachable from it without reading. -/
def Closed (n : NFA α) (s : StateSet) : Prop :=
  ∀ i ∈ s, ∀ j, n.EpsilonReaches i j → j ∈ s

variable [DecidableEq α]

/-- The handles are extended by a search along the epsilon edges. -/
theorem extendByEpsilon_eq (n : NFA α) (handles : List Nat) :
    n.extendByEpsilon handles =
      Search.reach n.epsilonTargets n.size (fun _ => epsilonTargets_lt) handles := by
  simp only [extendByEpsilon, epsilonTable_getD]

theorem mem_extendByEpsilon {n : NFA α} {handles : List Nat} {x : Nat} :
    x ∈ n.extendByEpsilon handles ↔ ∃ i ∈ handles, n.EpsilonReaches i x := by
  have hnext : Search.Reaches n.epsilonTargets = n.EpsilonReaches := by
    simp only [Search.Reaches, EpsilonReaches, mem_epsilonTargets]
  rw [extendByEpsilon_eq, Search.mem_reach_iff, hnext]

theorem mem_closure {n : NFA α} {handles : List Nat} {x : Nat} :
    x ∈ n.closure handles ↔ ∃ i ∈ handles, n.EpsilonReaches i x := by
  rw [closure, StateSet.mem_ofList, mem_extendByEpsilon]

theorem closure_closed (n : NFA α) (handles : List Nat) : n.Closed (n.closure handles) := by
  intro i hi j hj
  obtain ⟨h, hh, hi⟩ := mem_closure.mp hi
  exact mem_closure.mpr ⟨h, hh, hi.trans hj⟩

/-- A step by a letter ends at the targets of the edges that carry it. -/
theorem mem_step {n : NFA α} {s : StateSet} {a : α} {j : Nat} :
    j ∈ n.step s a ↔ ∃ i ∈ s, ⟨i, .symbol a, j⟩ ∈ n.edges := by
  rw [step, StateSet.mem_ofList, mem_foldr_targets]
  constructor
  · intro h
    obtain ⟨⟨i, label, t⟩, he, hp, rfl⟩ := h
    obtain ⟨hl, hi⟩ : label = .symbol a ∧ i ∈ s := by simpa using hp
    exact ⟨i, hi, hl ▸ he⟩
  · intro h
    obtain ⟨i, hi, he⟩ := h
    exact ⟨_, he, by simpa using hi, rfl⟩

/-- To follow a letter is to read it and then to go on by epsilon edges. -/
theorem mem_follow {n : NFA α} {s : StateSet} {a : α} {k : Nat} :
    k ∈ n.follow s a ↔ ∃ i ∈ s, ∃ j, ⟨i, .symbol a, j⟩ ∈ n.edges ∧ n.EpsilonReaches j k := by
  rw [follow, mem_closure]
  constructor
  · intro h
    obtain ⟨j, hj, hk⟩ := h
    obtain ⟨i, hi, he⟩ := mem_step.mp hj
    exact ⟨i, hi, j, he, hk⟩
  · intro h
    obtain ⟨i, hi, j, he, hk⟩ := h
    exact ⟨j, mem_step.mpr ⟨i, hi, he⟩, hk⟩

theorem follow_closed (n : NFA α) (s : StateSet) (a : α) : n.Closed (n.follow s a) :=
  n.closure_closed _

omit [DecidableEq α] in
/-- No edge leaves a handle that no state has. -/
theorem epsilonReaches_of_size_le {n : NFA α} {i j : Nat} (hi : n.size ≤ i) :
    n.EpsilonReaches i j ↔ j = i := by
  constructor
  · intro h
    rcases Relation.ReflTransGen.cases_head h with he | ⟨k, hedge, _⟩
    · exact he.symm
    · exact absurd (n.ends_lt _ hedge).1 (Nat.not_lt.mpr hi)
  · rintro rfl
    exact .refl

theorem closure_singleton_of_size_le {n : NFA α} {i : Nat} (hi : n.size ≤ i) :
    n.closure [i] = .ofList [i] := by
  apply StateSet.eq_of_mem_iff
  intro j
  simp [mem_closure, epsilonReaches_of_size_le hi]

theorem mem_closure_of_mem {n : NFA α} {handles : List Nat} {i : Nat} (hi : i ∈ handles) :
    i ∈ n.closure handles :=
  mem_closure.mpr ⟨i, hi, .refl⟩

theorem closure_mono {n : NFA α} {handles more : List Nat} (h : handles ⊆ more) {t : Nat}
    (ht : t ∈ n.closure handles) : t ∈ n.closure more := by
  obtain ⟨i, hi, hreaches⟩ := mem_closure.mp ht
  exact mem_closure.mpr ⟨i, h hi, hreaches⟩

/-- A closed set is its own closure. -/
theorem Closed.closure_eq {n : NFA α} {s : StateSet} (h : n.Closed s) :
    n.closure s.toList = s := by
  apply StateSet.eq_of_mem_iff
  intro j
  rw [mem_closure]
  constructor
  · rintro ⟨i, hi, hj⟩
    exact h i hi j hj
  · exact fun hj => ⟨j, hj, .refl⟩

theorem closure_cons (n : NFA α) (i : Nat) (handles : List Nat) :
    n.closure (i :: handles) = (n.closure [i]).union (n.closure handles) := by
  apply StateSet.eq_of_mem_iff
  simp [mem_closure]

theorem closure_nil (n : NFA α) : n.closure [] = .empty := by
  apply StateSet.eq_of_mem_iff
  simp [mem_closure]

def unionOfClosures (n : NFA α) (handles : List Nat) : StateSet :=
  handles.foldr (fun i rest => (n.closure [i]).union rest) .empty

theorem closure_eq_union (n : NFA α) (handles : List Nat) :
    n.closure handles = n.unionOfClosures handles := by
  induction handles with
  | nil => exact n.closure_nil
  | cons i handles ih =>
    rw [closure_cons, ih]
    rfl

/-- The closure of a list of handles, whatever it repeats and whether or not its handles have
states, holds in ascending order exactly what the handles reach over epsilon edges. It is a closure
in the sense of order theory, and a handle adds to it what it reaches on its own. -/
theorem closure_exact (n : NFA α) (handles : List Nat) :
    (n.closure handles).toList.Pairwise (· < ·) ∧
    (∀ t, t ∈ (n.closure handles).toList ↔ ∃ i ∈ handles, n.EpsilonReaches i t) ∧
    (∀ i, n.size ≤ i → (n.closure [i]).toList = [i]) ∧
    n.closure handles = n.unionOfClosures handles ∧
    (∀ i ∈ handles, i ∈ (n.closure handles).toList) ∧
    (∀ more, handles ⊆ more → (n.closure handles).toList ⊆ (n.closure more).toList) ∧
    n.closure (n.closure handles).toList = n.closure handles := by
  refine ⟨(n.closure handles).ascending, fun t => mem_closure, ?_, n.closure_eq_union handles,
    fun i => mem_closure_of_mem, fun more h t => closure_mono h,
    (n.closure_closed handles).closure_eq⟩
  intro i hi
  rw [closure_singleton_of_size_le hi]
  rfl

/-- Two states on a cycle of epsilon edges, one of them with a loop, and an edge with a letter to
a third state. -/
def eddy : NFA Char :=
  match build [.transition "p" .epsilon "q", .transition "q" .epsilon "p",
    .transition "q" .epsilon "q", .transition "q" (.symbol 'a') "r"] with
  | .ok n => n
  | .error _ => empty

/-- The last of the given handles has no state. -/
theorem closure_exact_eddy :
    eddy.size ≤ 7 ∧ (eddy.closure [7]).toList = [7] ∧
    [1] ⊆ [1, 1, 7] ∧ (eddy.closure [1]).toList ⊆ (eddy.closure [1, 1, 7]).toList ∧
    (eddy.closure [1, 1, 7]).toList = [0, 1, 7] ∧
    eddy.closure (eddy.closure [1, 1, 7]).toList = eddy.closure [1, 1, 7] := by
  have hsize : eddy.size ≤ 7 := by decide +kernel
  have hsub : [1] ⊆ [1, 1, 7] := by simp
  obtain ⟨_, _, houtside, _, _, _, hagain⟩ := closure_exact eddy [1, 1, 7]
  obtain ⟨_, _, _, _, _, hmore, _⟩ := closure_exact eddy [1]
  exact ⟨hsize, houtside 7 hsize, hsub, hmore [1, 1, 7] hsub, by decide +kernel, hagain⟩

/-- Extending a list of handles by what they reach over epsilon edges ends, after one turn for each
handle of the result. The result repeats nothing: the handles come first, each where it was first
mentioned, and then those that are reached besides. Extending it again changes nothing. -/
theorem extendByEpsilon_settles (n : NFA α) (handles : List Nat) :
    Search.EndsAfter n.epsilonTargets (n.extendByEpsilon handles).length
      handles.eraseDups.reverse handles.eraseDups.reverse (n.extendByEpsilon handles).reverse ∧
    (n.extendByEpsilon handles).length ≤ handles.length + n.size ∧
    (n.extendByEpsilon handles).Nodup ∧
    (∃ rest, n.extendByEpsilon handles = handles.eraseDups ++ rest ∧ ∀ i ∈ rest, i ∉ handles) ∧
    (∀ t, t ∈ n.extendByEpsilon handles ↔ ∃ i ∈ handles, n.EpsilonReaches i t) ∧
    n.extendByEpsilon (n.extendByEpsilon handles) = n.extendByEpsilon handles := by
  have hmem : ∀ t, t ∈ n.extendByEpsilon handles ↔ ∃ i ∈ handles, n.EpsilonReaches i t :=
    fun t => mem_extendByEpsilon
  simp only [extendByEpsilon_eq] at hmem ⊢
  exact ⟨Search.reach_endsAfter _ handles, Search.length_reach_le _ handles,
    Search.reach_nodup _ handles, Search.reach_eq_append _ handles, hmem,
    Search.reach_reach _ handles⟩

example : eddy.extendByEpsilon [1, 7, 1] = [1, 7, 0] := by decide +kernel

end Automata.NFA
