import Automata.StateSet.Basic
import Mathlib.Data.List.Sort

namespace Automata.StateSet

theorem eq_of_mem_iff {s t : StateSet} (h : ∀ i, i ∈ s ↔ i ∈ t) : s = t :=
  ext (s.ascending.eq_of_mem_iff t.ascending h)

def toSet (s : StateSet) : Set Nat :=
  {i | i ∈ s}

@[simp] theorem mem_toSet {s : StateSet} {i : Nat} : i ∈ s.toSet ↔ i ∈ s := .rfl

theorem toSet_injective : Function.Injective toSet :=
  fun _ _ h => eq_of_mem_iff fun i => Set.ext_iff.mp h i

theorem isEmpty_iff {s : StateSet} : s.isEmpty ↔ ∀ i, i ∉ s := by
  simp only [isEmpty, Array.isEmpty_iff, mem_def, toList, ← List.eq_nil_iff_forall_not_mem,
    Array.toList_eq_nil_iff]

theorem getElem_lt_getElem {s : StateSet} {i j : Nat} (hij : i < j) (hj : j < s.members.size) :
    s.members[i] < s.members[j] := by
  have := List.pairwise_iff_getElem.mp s.ascending i j
    (by simpa using Nat.lt_trans hij hj) (by simpa using hj) hij
  simpa using this

theorem lt_of_getElem_lt {s : StateSet} {i j : Nat} {hi : i < s.members.size}
    {hj : j < s.members.size} (h : s.members[i] < s.members[j]) : i < j := by
  rcases Nat.lt_trichotomy i j with hlt | rfl | hgt
  · exact hlt
  · exact absurd h (Nat.lt_irrefl _)
  · exact absurd h (Nat.lt_asymm (getElem_lt_getElem hgt hi))

/-- The search sees the part of the members between its bounds. -/
theorem holdsBetween_iff (s : StateSet) {x lo hi : Nat} {bound : hi ≤ s.members.size} :
    holdsBetween s.members x lo hi bound ↔
      ∃ k, ∃ hk : k < s.members.size, lo ≤ k ∧ k < hi ∧ s.members[k] = x := by
  fun_induction holdsBetween s.members x lo hi bound with
  | case1 lo hi bound h mid hlt ih =>
    have hx : x < s.members[mid] := Nat.compare_eq_lt.mp hlt
    rw [ih]
    constructor
    · intro hheld
      obtain ⟨k, hk, hlo, hhi, he⟩ := hheld
      exact ⟨k, hk, hlo, by omega, he⟩
    · intro hheld
      obtain ⟨k, hk, hlo, hhi, rfl⟩ := hheld
      exact ⟨k, hk, hlo, lt_of_getElem_lt hx, rfl⟩
  | case2 lo hi bound h mid heq =>
    have hx : x = s.members[mid] := Nat.compare_eq_eq.mp heq
    simp only [true_iff]
    exact ⟨mid, by omega, by omega, by omega, hx.symm⟩
  | case3 lo hi bound h mid hgt ih =>
    have hx : s.members[mid] < x := Nat.compare_eq_gt.mp hgt
    rw [ih]
    constructor
    · intro hheld
      obtain ⟨k, hk, hlo, hhi, he⟩ := hheld
      exact ⟨k, hk, by omega, hhi, he⟩
    · intro hheld
      obtain ⟨k, hk, hlo, hhi, rfl⟩ := hheld
      exact ⟨k, hk, lt_of_getElem_lt hx, hhi, rfl⟩
  | case4 lo hi bound h =>
    simp only [Bool.false_eq_true, false_iff]
    intro hheld
    obtain ⟨k, _, hlo, hhi, _⟩ := hheld
    omega

@[simp] theorem contains_iff {s : StateSet} {x : Nat} : s.contains x ↔ x ∈ s := by
  rw [contains, holdsBetween_iff, mem_def, toList, Array.mem_toList_iff, Array.mem_iff_getElem]
  constructor
  · intro h
    obtain ⟨k, hk, _, _, he⟩ := h
    exact ⟨k, hk, he⟩
  · intro h
    obtain ⟨k, hk, he⟩ := h
    exact ⟨k, hk, Nat.zero_le k, hk, he⟩

end Automata.StateSet
