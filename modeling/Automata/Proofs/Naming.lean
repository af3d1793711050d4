import Automata.Diagram
import Automata.Proofs.CanonicalName
import Automata.Proofs.StateSet

namespace Automata

namespace Roster

theorem index?_eq_idxOf {r : Roster} {name : String} (h : name ∈ r.names) :
    r.index? name = some (r.names.idxOf name) := by
  rw [index?_eq_some_iff, List.getElem?_eq_getElem (List.idxOf_lt_length_of_mem h),
    List.getElem_idxOf]

end Roster

namespace Diagram

variable {ℓ : Type}

/-- A handle is taken by a state exactly when it is below the size. -/
theorem state?_of_lt {d : Diagram ℓ} {i : Nat} (h : i < d.size) : ∃ s, d.state? i = some s :=
  ⟨_, Array.getElem?_eq_getElem h⟩

theorem states_getElem? (d : Diagram ℓ) (i : Nat) : d.states[i]? = d.state? i :=
  Array.getElem?_toList

@[simp] theorem length_states (d : Diagram ℓ) : d.states.length = d.size :=
  Array.length_toList

theorem stateAt_eq {d : Diagram ℓ} {i : Nat} {s : State} (h : d.state? i = some s) :
    d.stateAt i = .ok s := by
  simp [stateAt, h]

theorem nameOf_eq {d : Diagram ℓ} {i : Nat} {s : State} (h : d.state? i = some s) :
    d.nameOf i = s.name := by
  simp [nameOf, h]

theorem isFinal_eq {d : Diagram ℓ} {i : Nat} {s : State} (h : d.state? i = some s) :
    d.isFinal i = s.accepting := by
  simp [isFinal, h]

/-- A name is found at the handle of the state that bears it. -/
theorem index?_eq_some_iff_nameOf {d : Diagram ℓ} {name : String} {i : Nat} :
    d.index? name = some i ↔ i < d.size ∧ d.nameOf i = name := by
  rw [index?, Roster.index?_eq_some_iff, Roster.names_getElem?]
  constructor
  · intro h
    obtain ⟨s, hs, rfl⟩ := Option.map_eq_some_iff.mp h
    exact ⟨Roster.state?_eq_some_lt hs, nameOf_eq hs⟩
  · intro h
    obtain ⟨hi, rfl⟩ := h
    obtain ⟨s, hs⟩ := state?_of_lt hi
    rw [nameOf_eq hs]
    exact congrArg (Option.map State.name) hs

theorem index?_of_nameOf {d : Diagram ℓ} {name : String} {i : Nat} (hi : i < d.size)
    (h : d.nameOf i = name) : d.index? name = some i :=
  index?_eq_some_iff_nameOf.mpr ⟨hi, h⟩

theorem nameOf_of_index? {d : Diagram ℓ} {name : String} {i : Nat} (h : d.index? name = some i) :
    d.nameOf i = name :=
  (index?_eq_some_iff_nameOf.mp h).2

/-- A handle is known by its name. -/
theorem nameOf_inj {d : Diagram ℓ} {i j : Nat} (hi : i < d.size) (hj : j < d.size)
    (h : d.nameOf i = d.nameOf j) : i = j :=
  Option.some.inj ((index?_of_nameOf hi h).symm.trans (index?_of_nameOf hj rfl))

theorem require_eq {d : Diagram ℓ} {i : Nat} {s : State} (h : d.state? i = some s) :
    d.require s.name = .ok i := by
  have hindex : d.index? s.name = some i :=
    index?_eq_some_iff_nameOf.mpr ⟨Roster.state?_eq_some_lt h, nameOf_eq h⟩
  rw [require, hindex]

def stateFor (d : Diagram ℓ) (s : StateSet) : State where
  name := canonicalName (s.toList.map d.nameOf)
  accepting := s.toList.any d.isFinal

/-- Whether a set is final is the mark of the state that stands for it. -/
theorem anyFinal_eq {d : Diagram ℓ} {s : StateSet} (h : ∀ i ∈ s, i < d.size) :
    d.anyFinal s = .ok (d.stateFor s).accepting := by
  have go_eq : ∀ is : List Nat, (∀ i ∈ is, i < d.size) →
      anyFinal.go d is = .ok (is.any d.isFinal) := by
    intro is his
    induction is with
    | nil => rfl
    | cons i is ih =>
      obtain ⟨s, hs⟩ := state?_of_lt (his i List.mem_cons_self)
      have hrest := ih fun j hj => his j (List.mem_cons_of_mem i hj)
      cases hf : s.accepting <;>
        simp [anyFinal.go, stateAt_eq hs, isFinal_eq hs, hf, hrest, bind, Except.bind, pure,
          Except.pure]
  exact go_eq s.toList h

/-- The members' names are sorted, so that the order of the handles does not show. -/
theorem memberNames_eq {d : Diagram ℓ} {s : StateSet} (h : ∀ i ∈ s, i < d.size) :
    d.memberNames s = .ok (sorted (s.toList.map d.nameOf)) := by
  have hnames : ∀ is : List Nat, (∀ i ∈ is, i < d.size) →
      is.mapM (fun i => State.name <$> d.stateAt i) = .ok (is.map d.nameOf) := by
    intro is his
    induction is with
    | nil => rfl
    | cons i is ih =>
      obtain ⟨s, hs⟩ := state?_of_lt (his i List.mem_cons_self)
      have hrest := ih fun j hj => his j (List.mem_cons_of_mem i hj)
      rw [List.mapM_cons, hrest, stateAt_eq hs, List.map_cons, nameOf_eq hs]
      rfl
  rw [memberNames, hnames s.toList h]
  rfl

theorem setName_eq {d : Diagram ℓ} {s : StateSet} (h : ∀ i ∈ s, i < d.size) :
    d.setName s = .ok (d.stateFor s).name := by
  rw [setName, memberNames_eq h]
  exact congrArg Except.ok (canonicalName_congr (sorted_perm _))

/-- Sets of states are known by their names. -/
theorem stateFor_inj {d : Diagram ℓ} {s t : StateSet} (hs : ∀ i ∈ s, i < d.size)
    (ht : ∀ i ∈ t, i < d.size) (h : (d.stateFor s).name = (d.stateFor t).name) : s = t := by
  have hperm : (s.toList.map d.nameOf).Perm (t.toList.map d.nameOf) := perm_of_canonicalName_eq h
  have half : ∀ {u v : StateSet}, (∀ i ∈ u, i < d.size) → (∀ i ∈ v, i < d.size) →
      (u.toList.map d.nameOf).Perm (v.toList.map d.nameOf) → ∀ i ∈ u, i ∈ v := by
    intro u v hu hv hp i hi
    obtain ⟨j, hj, he⟩ := List.mem_map.mp (hp.mem_iff.mp (List.mem_map_of_mem hi))
    exact nameOf_inj (hv j hj) (hu i hi) he ▸ hj
  exact StateSet.eq_of_mem_iff fun i => ⟨half hs ht hperm i, half ht hs hperm.symm i⟩

/-- Only the empty set is named by empty brackets. -/
theorem stateFor_name_eq_empty {d : Diagram ℓ} {s : StateSet} :
    (d.stateFor s).name = "[]" ↔ ∀ i, i ∉ s := by
  have hempty : canonicalName [] = "[]" := rfl
  constructor
  · intro h
    have hperm := perm_of_canonicalName_eq (h.trans hempty.symm)
    have hnil := List.map_eq_nil_iff.mp hperm.eq_nil
    exact List.eq_nil_iff_forall_not_mem.mp hnil
  · intro h
    have hnil : s.toList = [] := List.eq_nil_iff_forall_not_mem.mpr h
    change canonicalName (s.toList.map d.nameOf) = _
    rw [hnil]
    exact hempty

end Diagram

/-- Two collections of names have one canonical name exactly when they hold the same names, each
as often. So every set of states of a diagram has a name, and no other set has the same one. -/
theorem canonicalName_injective :
    (∀ xs ys : List String, canonicalName xs = canonicalName ys ↔ xs.Perm ys) ∧
    ∀ (ℓ : Type) (d : Diagram ℓ) (s t : StateSet), (∀ i ∈ s, i < d.size) → (∀ i ∈ t, i < d.size) →
      ∃ name other, d.setName s = .ok name ∧ d.setName t = .ok other ∧ (name = other ↔ s = t) := by
  constructor
  · exact fun xs ys => ⟨perm_of_canonicalName_eq, canonicalName_congr⟩
  · intro ℓ d s t hs ht
    refine ⟨_, _, Diagram.setName_eq hs, Diagram.setName_eq ht, Diagram.stateFor_inj hs ht, ?_⟩
    rintro rfl
    rfl

/-- States whose names look like canonical names, or like parts of them. -/
def Diagram.lookalikes : Diagram Char :=
  ["a", "b", "a, b", "[a, b]", "", "\\0"].foldl (fun d name => (d.addState name).1) .empty

/-- A pair of names is not the name that is written like it, and an empty name is not the name
that is written for it. -/
theorem canonicalName_injective_lookalikes :
    canonicalName ["b", "", "b"] = canonicalName ["", "b", "b"] ∧
    canonicalName ["a", "b"] ≠ canonicalName ["a, b"] ∧ canonicalName [""] ≠ canonicalName ["\\0"] ∧
    (∀ i ∈ StateSet.ofList [0, 1], i < Diagram.lookalikes.size) ∧
    (∀ i ∈ StateSet.ofList [2], i < Diagram.lookalikes.size) ∧
    ∃ name other, Diagram.lookalikes.setName (.ofList [0, 1]) = .ok name ∧
      Diagram.lookalikes.setName (.ofList [2]) = .ok other ∧ name ≠ other := by
  obtain ⟨hnames, hsets⟩ := canonicalName_injective
  have hsize : Diagram.lookalikes.size = 6 := by decide +kernel
  have hpair : ∀ i ∈ StateSet.ofList [0, 1], i < Diagram.lookalikes.size := by
    simp [hsize]
  have hsingle : ∀ i ∈ StateSet.ofList [2], i < Diagram.lookalikes.size := by
    simp [hsize]
  refine ⟨(hnames _ _).mpr (by decide), ?_, ?_, hpair, hsingle, ?_⟩
  · exact fun h => absurd ((hnames _ _).mp h) (by decide)
  · exact fun h => absurd ((hnames _ _).mp h) (by decide)
  · obtain ⟨name, other, hname, hother, hiff⟩ := hsets Char Diagram.lookalikes _ _ hpair hsingle
    exact ⟨name, other, hname, hother, fun h => absurd (hiff.mp h) (by decide)⟩

end Automata
