import Automata.Proofs.Closure
import Mathlib.Data.Set.Finite.Lattice

namespace Automata.NFA

variable {α : Type}

/-- A path along the edges, with the labels that it meets. -/
inductive Path (n : NFA α) : Nat → List (Label α) → Nat → Prop
  | nil (i : Nat) : Path n i [] i
  | cons {i j k : Nat} {label : Label α} {labels : List (Label α)} :
      ⟨i, label, j⟩ ∈ n.edges → Path n j labels k → Path n i (label :: labels) k

/-- Some path leads from one state to the other with the word on it, once the epsilon labels are
erased. -/
def Leads (n : NFA α) (i : Nat) (word : List α) (j : Nat) : Prop :=
  ∃ labels, n.Path i labels j ∧ labels.filterMap Label.letter? = word

/-- The states that a word can lead to from the start state. -/
def reached (n : NFA α) (word : List α) : Set Nat :=
  {j | ∃ i, n.start = some i ∧ n.Leads i word j}

/-- The sets of states that the words over the alphabet lead to. -/
def subsets (n : NFA α) : Set (Set Nat) :=
  {states | ∃ word, (∀ a ∈ word, a ∈ n.alphabet) ∧ n.reached word = states}

variable {n : NFA α}

theorem Path.lt {i j : Nat} {labels : List (Label α)} (h : n.Path i labels j) (hi : i < n.size) :
    j < n.size := by
  induction h with
  | nil => exact hi
  | cons he _ ih => exact ih (n.ends_lt _ he).2

theorem Path.append {i j k : Nat} {first second : List (Label α)} (h : n.Path i first j)
    (h' : n.Path j second k) : n.Path i (first ++ second) k := by
  induction h with
  | nil => exact h'
  | cons he _ ih => exact .cons he (ih h')

theorem reached_lt {word : List α} {j : Nat} (h : j ∈ n.reached word) : j < n.size := by
  obtain ⟨i, hi, labels, hp, _⟩ := h
  exact hp.lt (n.start_lt i hi)

theorem subsets_finite (n : NFA α) : n.subsets.Finite := by
  apply (Set.finite_lt_nat n.size).finite_subsets.subset
  intro states hs
  obtain ⟨word, _, rfl⟩ := hs
  exact fun j hj => reached_lt hj

theorem Leads.refl (i : Nat) : n.Leads i [] i :=
  ⟨[], .nil i, rfl⟩

theorem Leads.epsilon {i j k : Nat} {word : List α} (he : ⟨i, .epsilon, j⟩ ∈ n.edges)
    (h : n.Leads j word k) : n.Leads i word k := by
  obtain ⟨labels, hp, hw⟩ := h
  exact ⟨.epsilon :: labels, .cons he hp, hw⟩

theorem Leads.symbol {i j k : Nat} {a : α} {word : List α} (he : ⟨i, .symbol a, j⟩ ∈ n.edges)
    (h : n.Leads j word k) : n.Leads i (a :: word) k := by
  obtain ⟨labels, hp, hw⟩ := h
  exact ⟨.symbol a :: labels, .cons he hp, congrArg (a :: ·) hw⟩

theorem EpsilonReaches.leads {i j k : Nat} {word : List α} (h : n.EpsilonReaches i j)
    (hw : n.Leads j word k) : n.Leads i word k := by
  induction h using Relation.ReflTransGen.head_induction_on with
  | refl => exact hw
  | head he _ ih => exact ih.epsilon he

/-- The empty word leads along epsilon edges. -/
theorem leads_nil_iff {i j : Nat} : n.Leads i [] j ↔ n.EpsilonReaches i j := by
  constructor
  · intro h
    obtain ⟨labels, hp, hw⟩ := h
    induction hp with
    | nil i => exact .refl
    | @cons i j k label labels he _ ih =>
      cases label with
      | symbol a => cases hw
      | epsilon => exact .head he (ih hw)
  · exact fun h => h.leads (.refl j)

/-- The epsilon edges in front of the first letter come apart from the rest of a path. -/
theorem leads_cons_iff {i k : Nat} {a : α} {word : List α} :
    n.Leads i (a :: word) k ↔
      ∃ j, n.EpsilonReaches i j ∧ ∃ t, ⟨j, .symbol a, t⟩ ∈ n.edges ∧ n.Leads t word k := by
  constructor
  · intro h
    obtain ⟨labels, hp, hw⟩ := h
    induction hp with
    | nil i => cases hw
    | @cons i j k label labels he hp ih =>
      cases label with
      | symbol b =>
        obtain ⟨hb, hrest⟩ : b = a ∧ labels.filterMap Label.letter? = word := List.cons.inj hw
        exact ⟨i, .refl, j, hb ▸ he, labels, hp, hrest⟩
      | epsilon =>
        obtain ⟨m, hm, h⟩ := ih hw
        exact ⟨m, .head he hm, h⟩
  · intro h
    obtain ⟨j, hj, t, he, hw⟩ := h
    exact hj.leads (hw.symbol he)

theorem Leads.mem_alphabet {i j : Nat} {word : List α} (h : n.Leads i word j) :
    ∀ a ∈ word, a ∈ n.alphabet := by
  obtain ⟨labels, hp, rfl⟩ := h
  intro a ha
  obtain ⟨label, hl, he⟩ := List.mem_filterMap.mp ha
  obtain rfl := Label.letter?_eq_some_iff.mp he
  induction hp with
  | nil => cases hl
  | @cons i j k label labels hedge _ ih =>
    rcases List.mem_cons.mp hl with rfl | hl
    · exact (n.mem_alphabet a).mpr ⟨_, hedge, rfl⟩
    · exact ih (List.mem_filterMap.mpr ⟨_, hl, rfl⟩) hl

variable [DecidableEq α]

@[simp] theorem run_cons (s : StateSet) (a : α) (word : List α) :
    n.run s (a :: word) = n.run (n.follow s a) word := rfl

theorem run_append (s : StateSet) (v w : List α) : n.run s (v ++ w) = n.run (n.run s v) w :=
  List.foldl_append

/-- Reading a word from a closed set ends in the states to which paths lead from the set. -/
theorem mem_run {s : StateSet} (hs : n.Closed s) {word : List α} {j : Nat} :
    j ∈ n.run s word ↔ ∃ i ∈ s, n.Leads i word j := by
  induction word generalizing s with
  | nil =>
    simp only [leads_nil_iff]
    exact ⟨fun hj => ⟨j, hj, .refl⟩, fun ⟨i, hi, hj⟩ => hs i hi j hj⟩
  | cons a word ih =>
    rw [run_cons, ih (n.follow_closed s a)]
    constructor
    · intro h
      obtain ⟨k, hk, hw⟩ := h
      obtain ⟨i, hi, t, he, hk⟩ := mem_follow.mp hk
      exact ⟨i, hi, (hk.leads hw).symbol he⟩
    · intro h
      obtain ⟨i, hi, hw⟩ := h
      obtain ⟨m, hm, t, he, hw⟩ := leads_cons_iff.mp hw
      exact ⟨t, mem_follow.mpr ⟨m, hs i hi m hm, t, he, .refl⟩, hw⟩

/-- The simulated set holds the states that the word reaches. -/
theorem toSet_run {i : Nat} (hi : n.start = some i) (word : List α) :
    (n.run (n.closure [i]) word).toSet = n.reached word := by
  ext j
  rw [StateSet.mem_toSet, mem_run (n.closure_closed [i])]
  constructor
  · intro h
    obtain ⟨k, hk, hw⟩ := h
    obtain ⟨l, hl, hk⟩ := mem_closure.mp hk
    exact ⟨i, hi, List.mem_singleton.mp hl ▸ hk.leads hw⟩
  · intro h
    obtain ⟨k, hk, hw⟩ := h
    obtain rfl : i = k := Option.some.inj (hi.symm.trans hk)
    exact ⟨i, mem_closure_of_mem List.mem_cons_self, hw⟩

theorem run_empty {s : StateSet} (hs : ∀ i, i ∉ s) (word : List α) : ∀ j, j ∉ n.run s word := by
  intro j hj
  obtain ⟨i, hi, _⟩ := (mem_run fun i hi => absurd hi (hs i)).mp hj
  exact hs i hi

/-- Giving up on an empty set changes no answer. -/
theorem acceptsFrom_eq (s : StateSet) (word : List α) :
    n.acceptsFrom s word = (n.run s word).toList.any n.isFinal := by
  induction word generalizing s with
  | nil => rfl
  | cons a word ih =>
    rw [acceptsFrom, run_cons]
    split
    · rename_i he
      have hnone := n.run_empty (StateSet.isEmpty_iff.mp he) word
      exact (List.any_eq_false.mpr fun j hj => absurd hj (hnone j)).symm
    · exact ih _

theorem accepts_iff_reached {word : List α} :
    n.accepts word ↔ ∃ j ∈ n.reached word, n.isFinal j := by
  unfold accepts
  split
  · rename_i hn
    simp [reached, hn]
  · rename_i i hi
    rw [acceptsFrom_eq, List.any_eq_true, ← toSet_run hi]
    rfl

/-- A word is accepted exactly when a path from the start state to a final state has the word on
it. Its letters are letters of the alphabet then. -/
theorem accepts_iff_path (n : NFA α) (word : List α) :
    (n.accepts word = true ↔ ∃ i, n.start = some i ∧ ∃ j labels, n.Path i labels j ∧
      labels.filterMap Label.letter? = word ∧ n.isFinal j = true) ∧
    ((∃ a ∈ word, a ∉ n.alphabet) → n.accepts word = false) := by
  constructor
  · rw [accepts_iff_reached]
    constructor
    · intro h
      obtain ⟨j, hreached, hj⟩ := h
      obtain ⟨i, hi, labels, hp, hw⟩ := hreached
      exact ⟨i, hi, j, labels, hp, hw, hj⟩
    · intro h
      obtain ⟨i, hi, j, labels, hp, hw, hj⟩ := h
      exact ⟨j, ⟨i, hi, labels, hp, hw⟩, hj⟩
  · intro hforeign
    obtain ⟨a, ha, hn⟩ := hforeign
    rw [Bool.eq_false_iff]
    intro haccepts
    obtain ⟨j, ⟨i, _, hw⟩, _⟩ := accepts_iff_reached.mp haccepts
    exact hn (hw.mem_alphabet a ha)

end Automata.NFA
