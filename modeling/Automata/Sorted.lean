namespace Automata

variable {α : Type} [Ord α]

/-- Puts a value in front of the first element that is not smaller. -/
def insertSorted (x : α) : List α → List α
  | [] => [x]
  | y :: ys => if (compare x y).isLE then x :: y :: ys else y :: insertSorted x ys

def sorted (xs : List α) : List α :=
  xs.foldr insertSorted []

@[simp] theorem sorted_nil : sorted ([] : List α) = [] := rfl

@[simp] theorem sorted_cons (x : α) (xs : List α) : sorted (x :: xs) = insertSorted x (sorted xs) := rfl

theorem insertSorted_perm (x : α) (xs : List α) : (insertSorted x xs).Perm (x :: xs) := by
  induction xs with
  | nil => exact .refl _
  | cons y ys ih =>
    unfold insertSorted
    split
    · exact .refl _
    · exact (ih.cons y).trans (.swap x y ys)

theorem sorted_perm (xs : List α) : (sorted xs).Perm xs := by
  induction xs with
  | nil => exact .refl _
  | cons x xs ih => exact (insertSorted_perm x _).trans (ih.cons x)

@[simp] theorem mem_sorted {x : α} {xs : List α} : x ∈ sorted xs ↔ x ∈ xs :=
  (sorted_perm xs).mem_iff

/-- Insertion keeps a list sorted. -/
theorem insertSorted_pairwise [Std.TransOrd α] (x : α) {xs : List α}
    (h : xs.Pairwise (fun a b => (compare a b).isLE)) :
    (insertSorted x xs).Pairwise (fun a b => (compare a b).isLE) := by
  induction xs with
  | nil => simp [insertSorted]
  | cons y ys ih =>
    obtain ⟨hy, hys⟩ := List.pairwise_cons.mp h
    unfold insertSorted
    split
    · rename_i hxy
      refine List.pairwise_cons.mpr ⟨?_, h⟩
      intro z hz
      rcases List.mem_cons.mp hz with rfl | hz
      · exact hxy
      · exact Std.TransCmp.isLE_trans hxy (hy z hz)
    · rename_i hxy
      refine List.pairwise_cons.mpr ⟨?_, ih hys⟩
      intro z hz
      rcases List.mem_cons.mp ((insertSorted_perm x ys).mem_iff.mp hz) with rfl | hz
      · rw [Std.OrientedOrd.eq_swap]
        cases hc : compare z y <;> simp_all
      · exact hy z hz

theorem sorted_pairwise [Std.TransOrd α] (xs : List α) :
    (sorted xs).Pairwise (fun a b => (compare a b).isLE) := by
  induction xs with
  | nil => exact .nil
  | cons x xs ih => exact insertSorted_pairwise x ih

/-- Two lists have one sorted form exactly when they hold the same values equally often. -/
theorem sorted_eq_iff_perm [Std.TransOrd α] [Std.LawfulEqOrd α] {xs ys : List α} :
    sorted xs = sorted ys ↔ xs.Perm ys := by
  constructor
  · intro h
    exact (sorted_perm xs).symm.trans (h ▸ sorted_perm ys)
  · intro h
    refine List.Perm.eq_of_pairwise ?_ (sorted_pairwise xs) (sorted_pairwise ys)
      ((sorted_perm xs).trans (h.trans (sorted_perm ys).symm))
    intro a b _ _ hab hba
    exact Std.LawfulEqCmp.eq_of_compare (Std.OrientedCmp.isLE_antisymm hab hba)

end Automata
