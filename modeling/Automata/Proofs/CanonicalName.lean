import Automata.CanonicalName

namespace Automata

namespace CanonicalName

def Ends (rest : List Char) : Prop :=
  ∀ c cs, rest = c :: cs → c = ','

/-- A shielded name is read back from before any end. -/
theorem shield_append_inj {n m r r' : List Char} (hr : Ends r) (hr' : Ends r')
    (h : shield n ++ r = shield m ++ r') : n = m ∧ r = r' := by
  induction n generalizing m with
  | nil =>
    cases m with
    | nil => exact ⟨rfl, h⟩
    | cons d m =>
      unfold shield at h
      split at h
      · have := hr _ _ h
        contradiction
      · rename_i hd
        obtain rfl := hr _ _ h
        contradiction
  | cons c n ih =>
    cases m with
    | nil =>
      unfold shield at h
      split at h
      · have := hr' _ _ h.symm
        contradiction
      · rename_i hc
        obtain rfl := hr' _ _ h.symm
        contradiction
    | cons d m =>
      unfold shield at h
      split at h <;> split at h
      · obtain ⟨hcd, hrest⟩ := List.cons.inj (List.cons.inj h).2
        obtain ⟨hn, hrr⟩ := ih hrest
        exact ⟨by rw [hcd, hn], hrr⟩
      · rename_i hd
        obtain rfl := (List.cons.inj h).1
        contradiction
      · rename_i hc _
        obtain rfl := (List.cons.inj h).1
        contradiction
      · obtain ⟨hcd, hrest⟩ := List.cons.inj h
        obtain ⟨hn, hrr⟩ := ih hrest
        exact ⟨by rw [hcd, hn], hrr⟩

/-- The text of the empty name is not the beginning of another member. -/
theorem empty_ne_shield {d : Char} {m r r' : List Char} :
    '\\' :: '0' :: r ≠ shield (d :: m) ++ r' := by
  intro h
  unfold shield at h
  split at h
  · rename_i hd
    obtain rfl := (List.cons.inj (List.cons.inj h).2).1
    contradiction
  · rename_i hd
    obtain rfl := (List.cons.inj h).1
    contradiction

/-- A member is read back from before any end, the empty name by its marker. -/
theorem member_append_inj {n m r r' : List Char} (hr : Ends r) (hr' : Ends r')
    (h : member n ++ r = member m ++ r') : n = m ∧ r = r' := by
  cases n with
  | nil =>
    cases m with
    | nil => exact ⟨rfl, by simpa [member] using h⟩
    | cons d m => exact absurd h empty_ne_shield
  | cons c n =>
    cases m with
    | nil => exact absurd h.symm empty_ne_shield
    | cons d m => exact shield_append_inj hr hr' h

theorem member_ne_nil (n : List Char) : member n ≠ [] := by
  cases n with
  | nil => simp [member]
  | cons c n =>
    change shield (c :: n) ≠ []
    unfold shield
    split <;> simp

/-- The members after the first, each behind its comma. -/
def further : List (List Char) → List Char
  | [] => []
  | names => ',' :: ' ' :: separated names

theorem separated_cons (name : List Char) (names : List (List Char)) :
    separated (name :: names) = member name ++ further names := by
  cases names <;> simp [separated, further]

theorem further_ends (names : List (List Char)) : Ends (further names) := by
  intro c cs h
  cases names with
  | nil => cases h
  | cons name names => exact (List.cons.inj h).1.symm

theorem separated_ne_nil (name : List Char) (names : List (List Char)) :
    separated (name :: names) ≠ [] := by
  rw [separated_cons]
  exact List.append_ne_nil_of_left_ne_nil (member_ne_nil name) _

/-- The text between the brackets determines the names and their order. -/
theorem separated_inj {ns ms : List (List Char)} (h : separated ns = separated ms) : ns = ms := by
  induction ns generalizing ms with
  | nil =>
    cases ms with
    | nil => rfl
    | cons m ms => exact absurd h.symm (separated_ne_nil m ms)
  | cons n ns ih =>
    cases ms with
    | nil => exact absurd h (separated_ne_nil n ns)
    | cons m ms =>
      rw [separated_cons, separated_cons] at h
      obtain ⟨hn, hrest⟩ := member_append_inj (further_ends ns) (further_ends ms) h
      have hns : ns = ms := by
        cases ns <;> cases ms
        · rfl
        · cases hrest
        · cases hrest
        · exact ih (List.cons.inj (List.cons.inj hrest).2).2
      rw [hn, hns]

end CanonicalName

theorem perm_of_canonicalName_eq {xs ys : List String} (h : canonicalName xs = canonicalName ys) :
    xs.Perm ys := by
  have htext := (List.cons.inj (String.ofList_injective h)).2
  have hnames := CanonicalName.separated_inj (List.append_cancel_right htext)
  have hsorted : sorted xs = sorted ys :=
    (List.map_inj_right fun _ _ => String.toList_inj.mp).mp hnames
  exact sorted_eq_iff_perm.mp hsorted

theorem canonicalName_congr {xs ys : List String} (h : xs.Perm ys) :
    canonicalName xs = canonicalName ys := by
  rw [canonicalName, canonicalName, sorted_eq_iff_perm.mpr h]

end Automata
