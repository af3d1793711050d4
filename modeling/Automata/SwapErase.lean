namespace Automata

variable {β : Type}

def swapErase (xs : Array β) (k : Nat) (h : k < xs.size) : Array β :=
  (xs.swap k (xs.size - 1) h (by omega)).pop

/-- The removed element and the rest are what was there before. -/
theorem swapErase_perm (xs : Array β) (k : Nat) (h : k < xs.size) :
    (xs[k] :: (swapErase xs k h).toList).Perm xs.toList := by
  have hlast : xs.size - 1 < xs.size := by omega
  have hswap := Array.perm_iff_toList_perm.mp (Array.swap_perm h hlast)
  have hne : (xs.swap k (xs.size - 1)).toList ≠ [] := by
    intro he
    have := congrArg List.length he
    simp only [Array.length_toList, Array.size_swap, List.length_nil] at this
    omega
  have hback : (xs.swap k (xs.size - 1)).toList.getLast hne = xs[k] := by
    rw [List.getLast_eq_getElem]
    simp only [Array.length_toList, Array.size_swap, Array.getElem_toList, Array.getElem_swap]
    split
    · rename_i hk
      simp only [hk]
    · simp
  refine List.Perm.trans ?_ hswap
  rw [swapErase, Array.toList_pop]
  refine (List.perm_append_singleton _ _).symm.trans ?_
  rw [← hback, List.dropLast_concat_getLast hne]

theorem mem_swapErase {xs : Array β} {k : Nat} {h : k < xs.size} {x : β}
    (hx : x ∈ swapErase xs k h) : x ∈ xs :=
  Array.mem_toList_iff.mp
    ((swapErase_perm xs k h).mem_iff.mp (List.mem_cons_of_mem _ (Array.mem_toList_iff.mpr hx)))

end Automata
