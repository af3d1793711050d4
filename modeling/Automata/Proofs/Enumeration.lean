import Automata.Proofs.WordOrder

namespace Automata

/-- A search through a list that is in order finds the least of the elements with a property. -/
theorem find?_eq_some_iff_least {β : Type} {R : β → β → Prop} (asymm : ∀ {x y}, R x y → ¬ R y x)
    {xs : List β} (h : xs.Pairwise R) {p : β → Bool} {x : β} :
    xs.find? p = some x ↔ x ∈ xs ∧ p x = true ∧ ∀ y ∈ xs, R y x → p y = false := by
  constructor
  · intro hfind
    refine ⟨List.mem_of_find?_eq_some hfind, List.find?_some hfind, ?_⟩
    obtain ⟨_, before, after, rfl, hbefore⟩ := List.find?_eq_some_iff_append.mp hfind
    intro y hy hyx
    rcases List.mem_append.mp hy with hy | hy
    · simpa using hbefore y hy
    · rcases List.mem_cons.mp hy with rfl | hy
      · exact absurd hyx (asymm hyx)
      · -- what stands behind the found element comes after it
        have hxy := (List.pairwise_cons.mp (List.pairwise_append.mp h).2.1).1 y hy
        exact absurd hyx (asymm hxy)
  · rintro ⟨hx, hp, hleast⟩
    apply List.find?_eq_some_iff_append.mpr
    obtain ⟨before, after, rfl⟩ := List.append_of_mem hx
    refine ⟨hp, before, after, rfl, ?_⟩
    intro y hy
    have hyx := (List.pairwise_append.mp h).2.2 y hy x List.mem_cons_self
    simpa using hleast y (List.mem_append_left _ hy) hyx

namespace Word

variable {α : Type} {alphabet : List α}

/-- Letters can be exchanged before the words are listed or afterwards. -/
theorem ofLength_map {β : Type} (f : β → α) (letters : List β) (n : Nat) :
    ofLength (letters.map f) n = (ofLength letters n).map (List.map f) := by
  induction n with
  | zero => rfl
  | succ n ih =>
    simp only [ofLength, ih, List.flatMap_map, List.map_flatMap, List.map_map]
    rfl

theorem length_ofLength (alphabet : List α) (n : Nat) :
    (ofLength alphabet n).length = alphabet.length ^ n := by
  induction n with
  | zero => rfl
  | succ n ih =>
    simp [ofLength, List.length_flatMap, ih, Nat.pow_succ, Nat.mul_comm]

/-- By induction on the length: words with one first letter are in the order of what follows it,
others in the order of their first letters. -/
theorem ofLength_pairwise_lex {R : α → α → Prop} (h : alphabet.Pairwise R) (n : Nat) :
    (ofLength alphabet n).Pairwise (List.Lex R) := by
  induction n with
  | zero => exact List.pairwise_singleton _ _
  | succ n ih =>
    apply List.pairwise_flatMap.mpr
    constructor
    · intro a _
      apply List.pairwise_map.mpr
      exact ih.imp .cons
    · apply h.imp
      intro a b hab x hx y hy
      obtain ⟨v, _, rfl⟩ := List.mem_map.mp hx
      obtain ⟨w, _, rfl⟩ := List.mem_map.mp hy
      exact .rel hab

/-- Words over an alphabet that may repeat letters are spelled by the places of their letters. -/
theorem ofLength_eq_map_places (alphabet : List α) (n : Nat) :
    ofLength alphabet n =
      (ofLength (List.finRange alphabet.length) n).map (List.map alphabet.get) := by
  rw [← ofLength_map, List.map_get_finRange]

/-- An order of words that puts shorter ones first needs a look at the words of one length only. -/
theorem upTo_pairwise_of {R : List α → List α → Prop} (shorter : ∀ v w, v.length < w.length → R v w)
    (same : ∀ n, (ofLength alphabet n).Pairwise R) (max : Nat) : (upTo alphabet max).Pairwise R := by
  apply List.pairwise_flatMap.mpr
  constructor
  · exact fun n _ => same n
  · apply List.pairwise_lt_range.imp
    intro m n hmn v hv w hw
    apply shorter
    rw [(mem_ofLength.mp hv).1, (mem_ofLength.mp hw).1]
    exact hmn

theorem upTo_pairwise_length (alphabet : List α) (max : Nat) :
    (upTo alphabet max).Pairwise fun v w => v.length ≤ w.length := by
  refine upTo_pairwise_of (fun _ _ => Nat.le_of_lt) (fun n => ?_) max
  apply List.pairwise_of_forall_mem_list
  intro v hv w hw
  exact Nat.le_of_eq ((mem_ofLength.mp hv).1.trans (mem_ofLength.mp hw).1.symm)

theorem upTo_nil (max : Nat) : upTo ([] : List α) max = [[]] := by
  rw [upTo, List.range_succ_eq_map, List.flatMap_cons, List.flatMap_map]
  simp [ofLength]

variable [DecidableEq α]

theorem ofLength_pairwise (h : alphabet.Nodup) (n : Nat) :
    (ofLength alphabet n).Pairwise (Precedes alphabet) := by
  have hplaces := ofLength_pairwise_lex (List.pairwise_map.mpr (idxOf_pairwise h)) n
  rw [ofLength_map, List.pairwise_map] at hplaces
  apply hplaces.imp_of_mem
  intro v w hv hw hlex
  have hlength := (mem_ofLength.mp hv).1.trans (mem_ofLength.mp hw).1.symm
  exact precedes_iff.mpr (.inr ⟨hlength, hlex⟩)

theorem upTo_pairwise (h : alphabet.Nodup) (max : Nat) :
    (upTo alphabet max).Pairwise (Precedes alphabet) :=
  upTo_pairwise_of (fun _ _ hlt => precedes_iff.mpr (.inl hlt)) (ofLength_pairwise h) max

/-- The search finds a word exactly when the word is the least one with the property. -/
theorem find?_eq_some_iff (h : alphabet.Nodup) {max : Nat} {p : List α → Bool} {w : List α} :
    find? alphabet max p = some w ↔
      w.length ≤ max ∧ (∀ a ∈ w, a ∈ alphabet) ∧ p w = true ∧
        ∀ v, (∀ a ∈ v, a ∈ alphabet) → Precedes alphabet v w → p v = false := by
  rw [find?_eq, find?_eq_some_iff_least Precedes.asymm (upTo_pairwise h max), mem_upTo, and_assoc]
  refine and_congr_right fun hlength => and_congr_right fun _ => and_congr_right fun _ => ?_
  constructor
  · intro hleast v hv hvw
    exact hleast v (mem_upTo.mpr ⟨hvw.length_le.trans hlength, hv⟩) hvw
  · exact fun hleast v hv hvw => hleast v (mem_upTo.mp hv).2 hvw

theorem upTo_nodup (h : alphabet.Nodup) (max : Nat) : (upTo alphabet max).Nodup := by
  apply (upTo_pairwise h max).imp
  rintro v _ hvw rfl
  exact Precedes.irrefl v hvw

/-- The words of each length are spelled by all tuples of so many places in the alphabet, in
lexicographic order, and the words of one length come after all shorter ones. A request for the
first words is answered with a beginning of this list. If the alphabet has no letter twice, then
the list has each word over it once, up to the greatest length, and no other word. -/
theorem upTo_shortlex (alphabet : List α) (max : Nat) :
    (∃ tuples : Nat → List (List (Fin alphabet.length)),
      (∀ n, (tuples n).length = alphabet.length ^ n ∧ (∀ t, t ∈ tuples n ↔ t.length = n) ∧
        (tuples n).Pairwise (· < ·)) ∧
      upTo alphabet max =
        (List.range (max + 1)).flatMap fun n => (tuples n).map (List.map alphabet.get)) ∧
    (∀ limit, take alphabet max limit = (upTo alphabet max).take limit) ∧
    (alphabet.Nodup → ∀ word, (upTo alphabet max).count word =
      if word.length ≤ max ∧ ∀ a ∈ word, a ∈ alphabet then 1 else 0) ∧
    (upTo alphabet max).Pairwise (fun v w => v.length ≤ w.length) ∧
    (alphabet = [] → upTo alphabet max = [[]]) := by
  refine ⟨⟨ofLength (List.finRange alphabet.length), ?_, ?_⟩, ?_, ?_, ?_, ?_⟩
  · intro n
    refine ⟨?_, ?_, ofLength_pairwise_lex (List.pairwise_lt_finRange _) n⟩
    · rw [length_ofLength, List.length_finRange]
    · simp [mem_ofLength]
  · simp only [upTo, ← ofLength_eq_map_places]
  · exact take_eq alphabet max
  · intro h word
    simp only [(upTo_nodup h max).count, mem_upTo]
  · exact upTo_pairwise_length alphabet max
  · rintro rfl
    exact upTo_nil max

/-- A letter that is listed twice spells its words twice. -/
example : upTo ['a', 'a'] 1 = [[], ['a'], ['a']] := rfl

/-- An alphabet that does not list its letters in their order, and one without letters. -/
theorem upTo_shortlex_reversed :
    (['b', 'a'] : List Char).Nodup ∧ (upTo ['b', 'a'] 5).count ['a', 'b', 'b'] = 1 ∧
      upTo ([] : List Char) 5 = [[]] := by
  have hnodup : (['b', 'a'] : List Char).Nodup := by decide
  obtain ⟨_, _, hcount, _⟩ := upTo_shortlex ['b', 'a'] 5
  obtain ⟨_, _, _, _, hnil⟩ := upTo_shortlex ([] : List Char) 5
  exact ⟨hnodup, hcount hnodup ['a', 'b', 'b'], hnil rfl⟩

end Word

end Automata
