import Automata.StateSet.Basic

namespace Automata.StateSet

def ascendingBelow : Nat → List (List Nat)
  | 0 => [[]]
  | n + 1 => ascendingBelow n ++ (ascendingBelow n).map (· ++ [n])

theorem length_ascendingBelow (n : Nat) : (ascendingBelow n).length = Nat.pow 2 n := by
  induction n with
  | zero => rfl
  | succ n ih => simp [ascendingBelow, ih, Nat.pow_succ, Nat.mul_two]

/-- Every ascending list of numbers below a bound is enumerated. -/
theorem mem_ascendingBelow {n : Nat} {xs : List Nat} (hs : xs.Pairwise (· < ·))
    (hb : ∀ x ∈ xs, x < n) : xs ∈ ascendingBelow n := by
  induction n generalizing xs with
  | zero =>
    cases xs with
    | nil => exact List.mem_singleton.mpr rfl
    | cons x xs => exact absurd (hb x List.mem_cons_self) (Nat.not_lt_zero x)
  | succ n ih =>
    apply List.mem_append.mpr
    by_cases hn : n ∈ xs
    · right
      rcases List.eq_nil_or_concat xs with rfl | ⟨ys, last, rfl⟩
      · cases hn
      · rw [List.concat_eq_append] at hs hb hn ⊢
        obtain ⟨hys, _, hlast⟩ := List.pairwise_append.mp hs
        have hle : n ≤ last := by
          rcases List.mem_append.mp hn with hn | hn
          · exact Nat.le_of_lt (hlast n hn last List.mem_cons_self)
          · exact Nat.le_of_eq (List.mem_singleton.mp hn)
        have hlt := hb last (by simp)
        obtain rfl : last = n := by omega
        refine List.mem_map.mpr ⟨ys, ih hys ?_, rfl⟩
        intro y hy
        exact hlast y hy last List.mem_cons_self
    · left
      refine ih hs fun x hx => ?_
      have hne : x ≠ n := fun h => hn (h ▸ hx)
      have := hb x hx
      omega

/-- There are no more sets of states than subsets. -/
theorem length_le_two_pow {n : Nat} {sets : List StateSet} (distinct : sets.Nodup)
    (bounded : ∀ s ∈ sets, ∀ i ∈ s, i < n) : sets.length ≤ Nat.pow 2 n := by
  have hnodup : (sets.map toList).Nodup := by
    refine List.pairwise_map.mpr (distinct.imp ?_)
    exact fun hne he => hne (ext he)
  have hsub : sets.map toList ⊆ ascendingBelow n := by
    intro xs hxs
    obtain ⟨s, hs, rfl⟩ := List.mem_map.mp hxs
    exact mem_ascendingBelow s.ascending (bounded s hs)
  simpa [length_ascendingBelow] using hnodup.length_le_of_subset hsub

end Automata.StateSet
