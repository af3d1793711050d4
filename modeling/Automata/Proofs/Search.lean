import Automata.Repetitions
import Automata.Search
import Mathlib.Data.List.Nodup
import Mathlib.Logic.Relation

namespace Automata.Search

def Reaches (next : Nat → List Nat) : Nat → Nat → Prop :=
  Relation.ReflTransGen fun i t => t ∈ next i

theorem mem_visit_stack {ts found stack : List Nat} {x : Nat} :
    x ∈ (visit ts found stack).2 ↔ x ∈ stack ∨ x ∈ ts ∧ x ∉ found := by
  induction ts generalizing found stack with
  | nil => simp [visit]
  | cons t ts ih =>
    unfold visit
    split
    · rename_i ht
      have : t ∈ found := by simpa using ht
      grind
    · rename_i ht
      have : t ∉ found := by simpa using ht
      grind

/-- What was found but no longer waits on the stack has had its targets found. -/
structure Frontier (next : Nat → List Nat) (found stack : List Nat) : Prop where
  stacked : ∀ i ∈ stack, i ∈ found
  expanded : ∀ i ∈ found, i ∉ stack → ∀ t ∈ next i, t ∈ found

theorem Frontier.initial (next : Nat → List Nat) (seeds : List Nat) :
    Frontier next seeds seeds :=
  ⟨fun _ hi => hi, fun _ hi hn => absurd hi hn⟩

/-- A visit moves the frontier past one node, to those of its neighbours that are new. -/
theorem Frontier.visit {next : Nat → List Nat} {i : Nat} {found stack : List Nat}
    (h : Frontier next found (i :: stack)) :
    Frontier next (visit (next i) found stack).1 (visit (next i) found stack).2 := by
  constructor
  · intro j hj
    rw [mem_visit]
    rcases mem_visit_stack.mp hj with hj | ⟨hj, _⟩
    · exact .inl (h.stacked j (List.mem_cons_of_mem i hj))
    · exact .inr hj
  · intro j hj hn t ht
    rw [mem_visit] at hj ⊢
    rw [mem_visit_stack] at hn
    have hfound : j ∈ found := by
      rcases hj with hj | hj
      · exact hj
      · exact Classical.byContradiction fun hf => hn (.inr ⟨hj, hf⟩)
    by_cases he : j = i
    · exact .inr (he ▸ ht)
    · have hstack : j ∉ i :: stack := by
        intro hm
        rcases List.mem_cons.mp hm with hm | hm
        · exact he hm
        · exact hn (.inl hm)
      exact .inl (h.expanded j hfound hstack t ht)

/-- With an empty stack, what was found is closed under the edges. -/
theorem Frontier.reaches {next : Nat → List Nat} {found : List Nat} (h : Frontier next found [])
    {i x : Nat} (hi : i ∈ found) (hx : Reaches next i x) : x ∈ found := by
  induction hx with
  | refl => exact hi
  | tail _ ht ih => exact h.expanded _ ih List.not_mem_nil _ ht

/-- The search finds what the seeds reach, for its frontier is empty at the end. -/
theorem mem_close_iff {next : Nat → List Nat} {bound : Nat}
    {bounded : ∀ i, ∀ t ∈ next i, t < bound} {found stack : List Nat} {x : Nat}
    (h : Frontier next found stack) :
    x ∈ close next bound bounded found stack ↔ ∃ s ∈ found, Reaches next s x := by
  fun_induction close next bound bounded found stack with
  | case1 found =>
    constructor
    · exact fun hx => ⟨x, hx, .refl⟩
    · intro hx
      obtain ⟨s, hs, hx⟩ := hx
      exact h.reaches hs hx
  | case2 found i stack ih =>
    rw [ih h.visit]
    constructor
    · intro hx
      obtain ⟨s, hs, hx⟩ := hx
      rcases mem_visit.mp hs with hs | hs
      · exact ⟨s, hs, hx⟩
      · exact ⟨i, h.stacked i List.mem_cons_self, .head hs hx⟩
    · intro hx
      obtain ⟨s, hs, hx⟩ := hx
      exact ⟨s, mem_visit.mpr (.inl hs), hx⟩

/-- The search is sound and complete. -/
theorem mem_reach_iff {next : Nat → List Nat} {bound : Nat}
    {bounded : ∀ i, ∀ t ∈ next i, t < bound} {seeds : List Nat} {x : Nat} :
    x ∈ reach next bound bounded seeds ↔ ∃ s ∈ seeds, Reaches next s x := by
  rw [reach, List.mem_reverse, mem_close_iff (.initial next _)]
  simp only [List.mem_reverse, List.mem_eraseDups]

/-- From what was found and what waits on the stack, the search ends with a result after so many
turns. A turn visits the neighbours of the top of the stack. -/
inductive EndsAfter (next : Nat → List Nat) : Nat → List Nat → List Nat → List Nat → Prop
  | empty (found : List Nat) : EndsAfter next 0 found [] found
  | turn {turns i : Nat} {found stack result : List Nat} :
      EndsAfter next turns (visit (next i) found stack).1 (visit (next i) found stack).2 result →
      EndsAfter next (turns + 1) found (i :: stack) result

theorem suffix_visit (ts found stack : List Nat) : found <:+ (visit ts found stack).1 := by
  induction ts generalizing found stack with
  | nil => exact List.suffix_refl found
  | cons t ts ih =>
    unfold visit
    split
    · exact ih found stack
    · exact (List.suffix_cons t found).trans (ih (t :: found) (t :: stack))

theorem visit_nodup {ts found stack : List Nat} (h : found.Nodup) :
    (visit ts found stack).1.Nodup := by
  induction ts generalizing found stack with
  | nil => exact h
  | cons t ts ih =>
    unfold visit
    split
    · exact ih h
    · rename_i ht
      have hfresh : t ∉ found := by simpa using ht
      exact ih (List.nodup_cons.mpr ⟨hfresh, h⟩)

/-- What a visit finds it puts on the stack. -/
theorem length_visit (ts found stack : List Nat) :
    (visit ts found stack).1.length + stack.length =
      (visit ts found stack).2.length + found.length := by
  induction ts generalizing found stack with
  | nil => exact Nat.add_comm ..
  | cons t ts ih =>
    unfold visit
    split
    · exact ih found stack
    · have := ih (t :: found) (t :: stack)
      simp only [List.length_cons] at this
      omega

theorem visit_of_subset {ts found stack : List Nat} (h : ts ⊆ found) :
    visit ts found stack = (found, stack) := by
  induction ts with
  | nil => rfl
  | cons t ts ih =>
    obtain ⟨ht, hts⟩ := List.cons_subset.mp h
    unfold visit
    rw [if_pos (List.contains_iff_mem.mpr ht), ih hts]

section

variable {next : Nat → List Nat} {bound : Nat} (bounded : ∀ i, ∀ t ∈ next i, t < bound)

theorem suffix_close (found stack : List Nat) : found <:+ close next bound bounded found stack := by
  fun_induction close next bound bounded found stack with
  | case1 found => exact List.suffix_refl found
  | case2 found i stack ih => exact (suffix_visit (next i) found stack).trans ih

theorem close_nodup {found stack : List Nat} (h : found.Nodup) :
    (close next bound bounded found stack).Nodup := by
  fun_induction close next bound bounded found stack with
  | case1 found => exact h
  | case2 found i stack ih => exact ih (visit_nodup h)

/-- Each handle that is found waits on the stack once, so the search takes a turn for each. -/
theorem close_endsAfter (found stack : List Nat) :
    ∃ turns, EndsAfter next turns found stack (close next bound bounded found stack) ∧
      turns + found.length = (close next bound bounded found stack).length + stack.length := by
  fun_induction close next bound bounded found stack with
  | case1 found => exact ⟨0, .empty found, Nat.add_comm ..⟩
  | case2 found i stack ih =>
    obtain ⟨turns, hends, hcount⟩ := ih
    have := length_visit (next i) found stack
    refine ⟨turns + 1, .turn hends, ?_⟩
    rw [List.length_cons]
    omega

/-- Nothing new is found from a stack whose targets were found before. -/
theorem close_of_closed {found stack : List Nat} (h : ∀ i ∈ stack, next i ⊆ found) :
    close next bound bounded found stack = found := by
  induction stack with
  | nil => rw [close]
  | cons i stack ih =>
    obtain ⟨hi, hstack⟩ := List.forall_mem_cons.mp h
    rw [close, visit_of_subset hi]
    exact ih hstack

variable (seeds : List Nat)

theorem reach_nodup : (reach next bound bounded seeds).Nodup :=
  List.nodup_reverse.mpr (close_nodup bounded (List.nodup_reverse.mpr (eraseDups_nodup seeds)))

theorem seeds_prefix_reach : seeds.eraseDups <+: reach next bound bounded seeds := by
  have h := suffix_close bounded seeds.eraseDups.reverse seeds.eraseDups.reverse
  rw [← List.reverse_prefix, List.reverse_reverse] at h
  exact h

/-- The result holds the seeds first, in their order, and then other handles. -/
theorem reach_eq_append : ∃ rest, reach next bound bounded seeds = seeds.eraseDups ++ rest ∧
    ∀ i ∈ rest, i ∉ seeds := by
  obtain ⟨rest, hrest⟩ := seeds_prefix_reach bounded seeds
  have hnodup := reach_nodup bounded seeds
  rw [← hrest] at hnodup
  refine ⟨rest, hrest.symm, ?_⟩
  intro i hi hseed
  exact (List.nodup_append.mp hnodup).2.2 i (List.mem_eraseDups.mpr hseed) i hi rfl

/-- From what was found a search finds nothing else, in the same order. -/
theorem reach_reach :
    reach next bound bounded (reach next bound bounded seeds) =
      reach next bound bounded seeds := by
  have hclosed : ∀ i ∈ (reach next bound bounded seeds).reverse,
      next i ⊆ (reach next bound bounded seeds).reverse := by
    intro i hi t ht
    rw [List.mem_reverse, mem_reach_iff] at hi ⊢
    obtain ⟨s, hs, hi⟩ := hi
    exact ⟨s, hs, hi.tail ht⟩
  rw [reach, eraseDups_of_nodup (reach_nodup bounded seeds), close_of_closed bounded hclosed,
    List.reverse_reverse]

theorem reach_endsAfter : EndsAfter next (reach next bound bounded seeds).length
    seeds.eraseDups.reverse seeds.eraseDups.reverse (reach next bound bounded seeds).reverse := by
  obtain ⟨turns, hends, hcount⟩ :=
    close_endsAfter bounded seeds.eraseDups.reverse seeds.eraseDups.reverse
  rw [reach, List.reverse_reverse, List.length_reverse, ← Nat.add_right_cancel hcount]
  exact hends

/-- No handle below the bound is found twice, and the others are seeds. -/
theorem length_reach_le : (reach next bound bounded seeds).length ≤ seeds.length + bound := by
  obtain ⟨rest, hreach, hrest⟩ := reach_eq_append bounded seeds
  have hbelow : rest ⊆ List.range bound := by
    intro i hi
    have hfound : i ∈ reach next bound bounded seeds := hreach ▸ List.mem_append_right _ hi
    exact List.mem_range.mpr ((mem_reach hfound).resolve_left (hrest i hi))
  have hnodup := reach_nodup bounded seeds
  rw [hreach] at hnodup ⊢
  have hlength := (List.nodup_append.mp hnodup).2.1.length_le_of_subset hbelow
  rw [List.length_range] at hlength
  rw [List.length_append]
  exact Nat.add_le_add (length_eraseDups_le seeds) hlength

end

end Automata.Search
