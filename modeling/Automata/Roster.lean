import Automata.Fault
import Automata.State

namespace Automata

/-- The states of an automaton in order of creation, and which handle each name has. A handle is a
position, so the two must agree: a name has a handle if and only if the state there has the name. -/
structure Roster where
  states : Array State
  index? : String → Option Nat
  indexed : ∀ name i, index? name = some i ↔ (states.toList.map State.name)[i]? = some name

namespace Roster

def empty : Roster where
  states := #[]
  index? _ := none
  indexed := by simp

def size (r : Roster) : Nat :=
  r.states.size

def names (r : Roster) : List String :=
  r.states.toList.map State.name

def state? (r : Roster) (i : Nat) : Option State :=
  r.states[i]?

theorem names_getElem? (r : Roster) (i : Nat) : r.names[i]? = (r.state? i).map State.name := by
  simp [names, state?]

theorem length_names (r : Roster) : r.names.length = r.size := by
  simp [names, size]

theorem index?_eq_some_iff {r : Roster} {name : String} {i : Nat} :
    r.index? name = some i ↔ r.names[i]? = some name :=
  r.indexed name i

/-- Two states of one name would both have to be the one that the name leads to. -/
theorem names_nodup (r : Roster) : r.names.Nodup := by
  refine List.pairwise_iff_getElem.mpr fun i j hi hj hlt heq => ?_
  have hfirst := index?_eq_some_iff.mpr (List.getElem?_eq_getElem hi)
  have hsecond := index?_eq_some_iff.mpr (List.getElem?_eq_getElem hj)
  have hij := Option.some.inj (hfirst.symm.trans ((congrArg r.index? heq).trans hsecond))
  exact Nat.ne_of_lt hlt hij

theorem index?_eq_none_iff {r : Roster} {name : String} : r.index? name = none ↔ name ∉ r.names := by
  rw [Option.eq_none_iff_forall_ne_some, List.mem_iff_getElem?, not_exists]
  exact forall_congr' fun i => not_congr index?_eq_some_iff

/-- The handles of the names are determined by the states. -/
@[ext]
theorem ext {r r' : Roster} (h : r.states = r'.states) : r = r' := by
  obtain ⟨states, index?, indexed⟩ := r
  obtain ⟨states', index?', indexed'⟩ := r'
  obtain rfl : states = states' := h
  obtain rfl : index? = index?' :=
    funext fun name => Option.ext fun i => (indexed name i).trans (indexed' name i).symm
  rfl

theorem state?_eq_some_lt {r : Roster} {i : Nat} {s : State} (h : r.state? i = some s) :
    i < r.size := by
  obtain ⟨hi, _⟩ := Array.getElem?_eq_some_iff.mp h
  exact hi

theorem index?_lt {r : Roster} {name : String} {i : Nat} (h : r.index? name = some i) :
    i < r.size := by
  obtain ⟨hi, _⟩ := List.getElem?_eq_some_iff.mp (index?_eq_some_iff.mp h)
  exact r.length_names ▸ hi

/-- A new state whose name is not taken, and its name with the next handle. -/
def push (r : Roster) (s : State) (fresh : r.index? s.name = none) : Roster where
  states := r.states.push s
  index? name := if name = s.name then some r.size else r.index? name
  indexed := by
    intro name i
    have hpush : ((r.states.push s).toList.map State.name)[i]? =
        if i = r.size then some s.name else r.names[i]? := by
      simp only [names, List.getElem?_map, Array.getElem?_toList, Array.getElem?_push, size]
      split <;> rfl
    rw [hpush]
    by_cases hname : name = s.name
    · have hother : r.names[i]? ≠ some name := fun h =>
        index?_eq_none_iff.mp fresh (hname ▸ List.mem_of_getElem? h)
      rw [if_pos hname]
      by_cases hi : i = r.size
      · simp [hi, hname]
      · simpa [hi, Ne.symm hi] using hother
    · rw [if_neg hname]
      by_cases hi : i = r.size
      · have hlast : r.index? name ≠ some i := by
          intro h
          exact Nat.ne_of_lt (index?_lt h) hi
        simpa [hi, Ne.symm hname] using hi ▸ hlast
      · rw [if_neg hi]
        exact index?_eq_some_iff

@[simp] theorem size_push {r : Roster} {s : State} {fresh : r.index? s.name = none} :
    (r.push s fresh).size = r.size + 1 := by
  simp [push, size]

def add (r : Roster) (name : String) : Roster × Nat :=
  match h : r.index? name with
  | some i => (r, i)
  | none => (r.push ⟨name, false⟩ h, r.size)

theorem size_le_add (r : Roster) (name : String) : r.size ≤ (r.add name).1.size := by
  unfold add
  split <;> simp

theorem add_lt (r : Roster) (name : String) : (r.add name).2 < (r.add name).1.size := by
  unfold add
  split
  · rename_i h
    exact index?_lt h
  · simp

/-- A state keeps its name when it is marked. -/
def accept (r : Roster) (i : Nat) : Roster where
  states := r.states.modify i State.accept
  index? := r.index?
  indexed := by
    intro name j
    rw [r.indexed, List.getElem?_map, List.getElem?_map, Array.getElem?_toList,
      Array.getElem?_toList, Array.getElem?_modify]
    split
    · cases r.states[j]? <;> rfl
    · rfl

@[simp] theorem size_accept {r : Roster} {i : Nat} : (r.accept i).size = r.size := by
  simp [accept, size]

end Roster

end Automata
