namespace Automata.Word

variable {α : Type}

/-- The words of one length; the last letter varies fastest. -/
def ofLength (alphabet : List α) : Nat → List (List α)
  | 0 => [[]]
  | n + 1 => alphabet.flatMap fun a => (ofLength alphabet n).map (a :: ·)

def upTo (alphabet : List α) (max : Nat) : List (List α) :=
  (List.range (max + 1)).flatMap (ofLength alphabet)

/-- Joins lists until there are enough elements; each list is asked only for what is missing. -/
def gather {β γ : Type} (limit : Nat) (part : β → Nat → List γ) (xs : List β) : List γ :=
  xs.foldl (fun found x => found ++ part x (limit - found.length)) []

def takeOfLength (alphabet : List α) (limit : Nat) : Nat → List (List α)
  | 0 => List.take limit [[]]
  | n + 1 =>
    if limit = 0 then []
    else gather limit (fun a missing => (takeOfLength alphabet missing n).map (a :: ·)) alphabet

/-- The first words of at most a length. Each length has a word or no greater length has one, so
only as many lengths are tried as words are wanted. -/
def take (alphabet : List α) (max limit : Nat) : List (List α) :=
  gather limit (fun n missing => takeOfLength alphabet missing n) (List.range (min (max + 1) limit))

def findOfLength? (alphabet : List α) (p : List α → Bool) : Nat → Option (List α)
  | 0 => if p [] then some [] else none
  | n + 1 =>
    alphabet.findSome? fun a => (findOfLength? alphabet (fun w => p (a :: w)) n).map (a :: ·)

/-- The first word with a property among those of a length and of so many lengths more. -/
def findFrom? (alphabet : List α) (p : List α → Bool) (length : Nat) : Nat → Option (List α)
  | 0 => findOfLength? alphabet p length
  | more + 1 =>
    match findOfLength? alphabet p length with
    | some w => some w
    | none => findFrom? alphabet p (length + 1) more

def find? (alphabet : List α) (max : Nat) (p : List α → Bool) : Option (List α) :=
  findFrom? alphabet p 0 max

theorem mem_ofLength {alphabet : List α} {n : Nat} {w : List α} :
    w ∈ ofLength alphabet n ↔ w.length = n ∧ ∀ a ∈ w, a ∈ alphabet := by
  induction n generalizing w with
  | zero => simp +contextual [ofLength, List.length_eq_zero_iff]
  | succ n ih =>
    cases w with
    | nil => simp [ofLength]
    | cons a w => simp [ofLength, ih, and_left_comm]

theorem mem_upTo {alphabet : List α} {max : Nat} {w : List α} :
    w ∈ upTo alphabet max ↔ w.length ≤ max ∧ ∀ a ∈ w, a ∈ alphabet := by
  simp only [upTo, List.mem_flatMap, List.mem_range, mem_ofLength]
  exact ⟨fun ⟨n, hn, hl, ha⟩ => ⟨by omega, ha⟩, fun ⟨hl, ha⟩ => ⟨w.length, by omega, rfl, ha⟩⟩

theorem findOfLength?_eq (alphabet : List α) (p : List α → Bool) (n : Nat) :
    findOfLength? alphabet p n = (ofLength alphabet n).find? p := by
  induction n generalizing p with
  | zero => cases h : p [] <;> simp [findOfLength?, ofLength, h]
  | succ n ih =>
    simp only [findOfLength?, ofLength, List.find?_flatMap, List.find?_map, ih]
    rfl

/-- The search by length finds the first word in the list of them all. -/
theorem findFrom?_eq (alphabet : List α) (p : List α → Bool) (length more : Nat) :
    findFrom? alphabet p length more =
      ((List.range' length (more + 1)).flatMap (ofLength alphabet)).find? p := by
  induction more generalizing length with
  | zero => simp [findFrom?, findOfLength?_eq]
  | succ more ih =>
    have hrange : List.range' length (more + 1 + 1) = length :: List.range' (length + 1) (more + 1) :=
      List.range'_succ
    rw [hrange, List.flatMap_cons, List.find?_append, findFrom?, findOfLength?_eq, ih]
    cases (ofLength alphabet length).find? p <;> rfl

/-- Searching word by word finds what the whole list would show. -/
theorem find?_eq (alphabet : List α) (max : Nat) (p : List α → Bool) :
    find? alphabet max p = (upTo alphabet max).find? p := by
  rw [find?, findFrom?_eq, upTo, List.range_eq_range']

/-- To gather up to a limit is to take that many of the whole. -/
theorem foldl_gather {β γ : Type} {limit : Nat} {part : β → Nat → List γ} {whole : β → List γ}
    (h : ∀ x n, part x n = (whole x).take n) (xs : List β) (found : List γ)
    (hf : found.length ≤ limit) :
    xs.foldl (fun found x => found ++ part x (limit - found.length)) found =
      (found ++ xs.flatMap whole).take limit := by
  induction xs generalizing found with
  | nil => simp [List.take_of_length_le hf]
  | cons x xs ih =>
    have hx : found ++ (whole x).take (limit - found.length) = (found ++ whole x).take limit := by
      rw [List.take_append, List.take_of_length_le hf]
    have hl : ((found ++ whole x).take limit).length ≤ limit := by
      rw [List.length_take]
      exact Nat.min_le_left _ _
    rw [List.foldl_cons, h, hx, ih _ hl, List.flatMap_cons, ← List.append_assoc]
    conv => rhs; rw [List.take_append]
    conv => lhs; rw [List.take_append, List.take_take, Nat.min_self]
    congr 1
    by_cases hl : (found ++ whole x).length ≤ limit
    · rw [List.take_of_length_le hl]
    · have h1 : limit - ((found ++ whole x).take limit).length = 0 := by
        rw [List.length_take]; omega
      have h2 : limit - (found ++ whole x).length = 0 := by omega
      rw [h1, h2]

theorem gather_eq {β γ : Type} {limit : Nat} {part : β → Nat → List γ} {whole : β → List γ}
    (h : ∀ x n, part x n = (whole x).take n) (xs : List β) :
    gather limit part xs = (xs.flatMap whole).take limit :=
  foldl_gather h xs [] (Nat.zero_le _)

theorem takeOfLength_eq (alphabet : List α) (limit n : Nat) :
    takeOfLength alphabet limit n = (ofLength alphabet n).take limit := by
  induction n generalizing limit with
  | zero => rfl
  | succ n ih =>
    rw [takeOfLength, ofLength]
    split
    · simp [*]
    · exact gather_eq (fun a k => by rw [ih, List.map_take]) alphabet

theorem ofLength_ne_nil {alphabet : List α} (h : alphabet ≠ []) (n : Nat) :
    ofLength alphabet n ≠ [] := by
  obtain ⟨a, ha⟩ := List.exists_mem_of_ne_nil alphabet h
  apply List.ne_nil_of_mem (a := List.replicate n a)
  exact mem_ofLength.mpr ⟨by simp, fun b hb => (List.eq_of_mem_replicate hb) ▸ ha⟩

theorem length_le_flatMap {β γ : Type} (f : β → List γ) (xs : List β) (h : ∀ x ∈ xs, f x ≠ []) :
    xs.length ≤ (xs.flatMap f).length := by
  induction xs with
  | nil => simp
  | cons x xs ih =>
    have := List.length_pos_iff.mpr (h x (by simp))
    have := ih fun y hy => h y (by simp [hy])
    simp only [List.flatMap_cons, List.length_append, List.length_cons]
    omega

/-- The first words are a beginning of the whole list. -/
theorem take_eq (alphabet : List α) (max limit : Nat) :
    take alphabet max limit = (upTo alphabet max).take limit := by
  rw [take, gather_eq (fun n k => takeOfLength_eq alphabet k n), upTo]
  by_cases hm : max + 1 ≤ limit
  · rw [Nat.min_eq_left hm]
  · obtain ⟨more, hmore⟩ : ∃ more, max + 1 = limit + more := ⟨max + 1 - limit, by omega⟩
    rw [Nat.min_eq_right (by omega), hmore, List.range_eq_range', List.range_eq_range',
      ← List.range'_append_1, List.flatMap_append]
    by_cases ha : alphabet = []
    · cases limit with
      | zero => simp
      | succ limit =>
        have hnone : (List.range' (0 + (limit + 1)) more).flatMap (ofLength alphabet) = [] := by
          apply List.flatMap_eq_nil_iff.mpr
          intro n hn
          obtain ⟨k, rfl⟩ : ∃ k, n = k + 1 := ⟨n - 1, by have := List.mem_range'_1.mp hn; omega⟩
          simp [ofLength, ha]
        rw [hnone, List.append_nil]
    · rw [List.take_append_of_le_length]
      simpa using length_le_flatMap (ofLength alphabet) (List.range' 0 limit)
        (fun n _ => ofLength_ne_nil ha n)

end Automata.Word
