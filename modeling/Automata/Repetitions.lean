namespace Automata

variable {β : Type} [DecidableEq β]

theorem eraseDups_nodup (xs : List β) : xs.eraseDups.Nodup := by
  match xs with
  | [] => simp
  | x :: xs =>
    rw [List.eraseDups_cons]
    refine List.nodup_cons.mpr ⟨?_, eraseDups_nodup _⟩
    intro hx
    simpa using List.mem_eraseDups.mp hx
termination_by xs.length
decreasing_by exact Nat.lt_succ_of_le (List.length_filter_le _ _)

theorem eraseDups_of_nodup {xs : List β} (h : xs.Nodup) : xs.eraseDups = xs := by
  induction xs with
  | nil => rfl
  | cons x xs ih =>
    obtain ⟨hx, hxs⟩ := List.nodup_cons.mp h
    have hkeep : xs.filter (fun y => !y == x) = xs := by
      apply List.filter_eq_self.mpr
      intro y hy
      have hne : y ≠ x := fun he => hx (he ▸ hy)
      simpa using hne
    rw [List.eraseDups_cons, hkeep, ih hxs]

/-- Leaving out repetitions early makes no difference. -/
theorem eraseDups_append_eraseDups (xs ys : List β) :
    (xs.eraseDups ++ ys).eraseDups = (xs ++ ys).eraseDups := by
  have hremove : ys.removeAll xs.eraseDups = ys.removeAll xs := by
    simp [List.removeAll, List.mem_eraseDups]
  rw [List.eraseDups_append, List.eraseDups_append, hremove,
    eraseDups_of_nodup (eraseDups_nodup xs)]

theorem eraseDups_concat {xs : List β} (h : xs.Nodup) (x : β) :
    (xs ++ [x]).eraseDups = if x ∈ xs then xs else xs ++ [x] := by
  rw [List.eraseDups_append, eraseDups_of_nodup h]
  by_cases hx : x ∈ xs <;> simp [List.removeAll, List.eraseDups_cons, hx]

theorem prefix_eraseDups_append {xs : List β} (h : xs.Nodup) (ys : List β) :
    xs <+: (xs ++ ys).eraseDups := by
  rw [List.eraseDups_append, eraseDups_of_nodup h]
  exact List.prefix_append _ _

/-- Adding what is there already leaves a list without repetitions as it is. -/
theorem eraseDups_append_of_subset {xs ys : List β} (h : xs.Nodup)
    (hsub : ys ⊆ xs) : (xs ++ ys).eraseDups = xs := by
  have hnew : ys.removeAll xs = [] :=
    List.filter_eq_nil_iff.mpr fun y hy => by simpa using hsub hy
  rw [List.eraseDups_append, eraseDups_of_nodup h, hnew, List.eraseDups_nil, List.append_nil]

theorem length_eraseDups_le (xs : List β) : xs.eraseDups.length ≤ xs.length :=
  (eraseDups_nodup xs).length_le_of_subset fun _ hx => List.mem_eraseDups.mp hx

end Automata
