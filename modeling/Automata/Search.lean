namespace Automata.Search

/-- Adds the targets that are new to what was found, latest first, and to the stack. -/
def visit : List Nat → List Nat → List Nat → List Nat × List Nat
  | [], found, stack => (found, stack)
  | t :: ts, found, stack =>
    if found.contains t then visit ts found stack else visit ts (t :: found) (t :: stack)

def missing (bound : Nat) (found : List Nat) : Nat :=
  (List.range bound).countP fun i => !found.contains i

/-- To find one more node leaves one less to find. -/
theorem missing_cons {bound t : Nat} {found : List Nat} (ht : t < bound) (hf : t ∉ found) :
    missing bound (t :: found) + 1 = missing bound found := by
  have hsplit : List.range bound = List.range t ++ t :: List.range' (t + 1) (bound - (t + 1)) := by
    obtain ⟨k, rfl⟩ : ∃ k, bound = t + (k + 1) := ⟨bound - (t + 1), by omega⟩
    have hk : t + (k + 1) - (t + 1) = k := by omega
    rw [List.range_eq_range', List.range_eq_range', ← List.range'_append_1, List.range'_succ, hk,
      Nat.zero_add]
  have hother : ∀ l : List Nat, t ∉ l →
      l.countP (fun i => !(t :: found).contains i) = l.countP (fun i => !found.contains i) := by
    intro l hl
    apply List.countP_congr
    intro i hi
    have hne : i ≠ t := fun h => hl (h ▸ hi)
    simp [hne]
  unfold missing
  rw [hsplit, List.countP_append, List.countP_append, List.countP_cons, List.countP_cons,
    hother (List.range t) (by simp),
    hother (List.range' (t + 1) (bound - (t + 1))) (by rw [List.mem_range'_1]; omega)]
  simp [hf]
  omega

/-- What a visit takes from the missing handles it puts on the stack. -/
theorem visit_missing {bound : Nat} {ts found stack : List Nat} (h : ∀ t ∈ ts, t < bound) :
    missing bound (visit ts found stack).1 + (visit ts found stack).2.length =
      missing bound found + stack.length := by
  induction ts generalizing found stack with
  | nil => rfl
  | cons t ts ih =>
    have hts := fun u hu => h u (List.mem_cons_of_mem t hu)
    unfold visit
    split
    · exact ih hts
    · rename_i hf
      have hm := missing_cons (h t List.mem_cons_self) (by simpa using hf)
      rw [ih hts, List.length_cons]
      omega

/-- Visits the neighbours of what is on the stack until nothing is left there. What was found is
listed latest first. -/
def close (next : Nat → List Nat) (bound : Nat) (bounded : ∀ i, ∀ t ∈ next i, t < bound)
    (found : List Nat) : List Nat → List Nat
  | [] => found
  | i :: stack =>
    close next bound bounded (visit (next i) found stack).1 (visit (next i) found stack).2
termination_by stack => missing bound found + stack.length
decreasing_by
  have := @visit_missing bound (next i) found stack (bounded i)
  simp only [List.length_cons]
  omega

/-- The seeds, each once, and everything reachable from them. The last seed is searched first. -/
def reach (next : Nat → List Nat) (bound : Nat) (bounded : ∀ i, ∀ t ∈ next i, t < bound)
    (seeds : List Nat) : List Nat :=
  let first := seeds.eraseDups.reverse
  (close next bound bounded first first).reverse

/-- A visit finds the neighbours. -/
theorem mem_visit {ts found stack : List Nat} {x : Nat} :
    x ∈ (visit ts found stack).1 ↔ x ∈ found ∨ x ∈ ts := by
  induction ts generalizing found stack with
  | nil => simp [visit]
  | cons t ts ih =>
    unfold visit
    split
    · rename_i ht
      have : t ∈ found := by simpa using ht
      grind
    · rw [ih]
      grind

theorem mem_close {next : Nat → List Nat} {bound : Nat}
    {bounded : ∀ i, ∀ t ∈ next i, t < bound} {found stack : List Nat} {x : Nat}
    (h : x ∈ close next bound bounded found stack) : x ∈ found ∨ x < bound := by
  fun_induction close next bound bounded found stack with
  | case1 => exact .inl h
  | case2 found i stack ih =>
    rcases ih h with h | h
    · exact (mem_visit.mp h).imp_right (bounded i x)
    · exact .inr h

/-- Only seeds can lie beyond the bound. -/
theorem mem_reach {next : Nat → List Nat} {bound : Nat}
    {bounded : ∀ i, ∀ t ∈ next i, t < bound} {seeds : List Nat} {x : Nat}
    (h : x ∈ reach next bound bounded seeds) : x ∈ seeds ∨ x < bound := by
  rcases mem_close (List.mem_reverse.mp h) with h | h
  · exact .inl (List.mem_eraseDups.mp (List.mem_reverse.mp h))
  · exact .inr h

end Automata.Search
