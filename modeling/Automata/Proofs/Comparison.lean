import Automata.Proofs.Subsets

namespace Automata

variable {α : Type}

namespace Word

variable {σ : Type} {f : List α → σ} {values : Set σ}

/-- Of the beginnings of a word that is longer than there are values, two have one value. What
stands between them can be left out. -/
theorem exists_shorter (finite : values.Finite) (mem : ∀ word, f word ∈ values)
    (append : ∀ v w u, f v = f w → f (v ++ u) = f (w ++ u)) {word : List α}
    (hword : values.ncard ≤ word.length) : ∃ v, v.length < word.length ∧ f v = f word := by
  have hcard : values.ncard < (Finset.range (word.length + 1) : Set Nat).ncard := by
    rw [Set.ncard_coe_finset, Finset.card_range]
    omega
  obtain ⟨i, hi, j, hj, hne, hsame⟩ := Set.exists_ne_map_eq_of_ncard_lt_of_maps_to hcard
    (fun k _ => mem (word.take k)) finite
  have shorter : ∀ {i j : Nat}, i < j → j ≤ word.length → f (word.take i) = f (word.take j) →
      ∃ v, v.length < word.length ∧ f v = f word := by
    intro i j hij hj hsame
    refine ⟨word.take i ++ word.drop j, ?_, ?_⟩
    · simp only [List.length_append, List.length_take, List.length_drop]
      omega
    · rw [append _ _ _ hsame, List.take_append_drop]
  simp only [Finset.coe_range, Set.mem_Iio] at hi hj
  rcases Nat.lt_or_gt_of_ne hne with hlt | hgt
  · exact shorter hlt (by omega) hsame
  · exact shorter hgt (by omega) hsame.symm

/-- Each value is the value of a word that is shorter than there are values. -/
theorem exists_short (finite : values.Finite) (mem : ∀ word, f word ∈ values)
    (append : ∀ v w u, f v = f w → f (v ++ u) = f (w ++ u)) (word : List α) :
    ∃ v, v.length < values.ncard ∧ f v = f word := by
  induction hl : word.length using Nat.strongRecOn generalizing word with
  | ind length ih =>
    by_cases hshort : word.length < values.ncard
    · exact ⟨word, hshort, rfl⟩
    · obtain ⟨v, hv, hsame⟩ := exists_shorter finite mem append (Nat.le_of_not_lt hshort)
      obtain ⟨u, hu, hsame'⟩ := ih v.length (hl ▸ hv) v rfl
      exact ⟨u, hu, hsame'.trans hsame⟩

end Word

variable [DecidableEq α]

theorem NFA.reached_append {n : NFA α} {v w : List α} (h : n.reached v = n.reached w)
    (u : List α) : n.reached (v ++ u) = n.reached (w ++ u) := by
  cases hs : n.start with
  | none => simp [reached, hs]
  | some i =>
    rw [← toSet_run hs, ← toSet_run hs] at h
    rw [← toSet_run hs, ← toSet_run hs, run_append, run_append, StateSet.toSet_injective h]

namespace DFA

def ending (d : DFA α) (word : List α) : Option Nat :=
  d.start.bind (d.run · word)

theorem ending_append (d : DFA α) (word rest : List α) :
    d.ending (word ++ rest) = (d.ending word).bind (d.run · rest) := by
  cases hs : d.start with
  | none => simp [ending, hs]
  | some i => simp [ending, hs, run, List.foldlM_append]

theorem ending_lt {d : DFA α} {t : Nat} {word : List α} (h : d.ending word = some t) :
    t < d.size := by
  obtain ⟨i, hi, hrun⟩ := Option.bind_eq_some_iff.mp h
  exact run_lt_size (d.start_lt i hi) hrun

theorem accepts_eq_any (d : DFA α) (word : List α) :
    d.accepts word = (d.ending word).any d.isFinal := by
  unfold accepts ending
  cases d.start.bind (d.run · word) <;> rfl

theorem mem_alphabet_of_accepts {d : DFA α} {word : List α} (h : d.accepts word = true) :
    ∀ a ∈ word, a ∈ d.alphabet := by
  cases hs : d.start with
  | none => simp [accepts, hs] at h
  | some i =>
    obtain ⟨t, ht, _⟩ := (accepts_iff hs).mp h
    exact mem_alphabet_of_run ht

end DFA

namespace Automaton

def reached : Automaton α → List α → Set Nat
  | nfa n, word => n.reached word
  | dfa d, word => {i | d.ending word = some i}

omit [DecidableEq α] in
/-- How many sets of states an automaton can be in. A deterministic one is in one state at most. -/
def capacity : Automaton α → Nat
  | nfa n => 2 ^ n.size
  | dfa d => d.size + 1

omit [DecidableEq α] in
/-- The sets of states that an automaton has room for. -/
def situations : Automaton α → Set (Set Nat)
  | nfa n => 𝒫 ↑(Finset.range n.size)
  | dfa d => insert ∅ ((fun i => {i}) '' ↑(Finset.range d.size))

omit [DecidableEq α] in
theorem situations_finite (a : Automaton α) : a.situations.Finite := by
  cases a with
  | nfa n => exact (Finset.finite_toSet _).powerset
  | dfa d => exact ((Finset.finite_toSet _).image _).insert _

omit [DecidableEq α] in
/-- There are no more situations than the capacity. -/
theorem ncard_situations_le (a : Automaton α) : a.situations.ncard ≤ a.capacity := by
  cases a with
  | nfa n =>
    rw [situations, Set.ncard_powerset _ (Finset.finite_toSet _), Set.ncard_coe_finset,
      Finset.card_range]
    exact Nat.le_refl _
  | dfa d =>
    have himage : ((fun i => ({i} : Set Nat)) '' ↑(Finset.range d.size)).ncard ≤ d.size := by
      have := Set.ncard_image_le (f := fun i => ({i} : Set Nat))
        (Finset.finite_toSet (Finset.range d.size))
      rwa [Set.ncard_coe_finset, Finset.card_range] at this
    exact (Set.ncard_insert_le _ _).trans (Nat.succ_le_succ himage)

/-- Every word leads to a situation. -/
theorem reached_mem (a : Automaton α) (word : List α) : a.reached word ∈ a.situations := by
  cases a with
  | nfa n =>
    intro i hi
    simpa using NFA.reached_lt hi
  | dfa d =>
    cases h : d.ending word with
    | none => simp [reached, situations, h]
    | some i =>
      right
      refine ⟨i, by simpa using DFA.ending_lt h, ?_⟩
      simp [reached, h]

/-- What a word leads to after two beginnings that lead to the same states. -/
theorem reached_append (a : Automaton α) (v w u : List α) (h : a.reached v = a.reached w) :
    a.reached (v ++ u) = a.reached (w ++ u) := by
  cases a with
  | nfa n => exact NFA.reached_append h u
  | dfa d =>
    have hending : d.ending v = d.ending w := Option.ext fun i => Set.ext_iff.mp h i
    simp only [reached, DFA.ending_append, hending]

theorem accepts_congr {a : Automaton α} {v w : List α} (h : a.reached v = a.reached w) :
    a.accepts v = a.accepts w := by
  cases a with
  | nfa n =>
    have hreached : n.reached v = n.reached w := h
    rw [accepts, Bool.eq_iff_iff, NFA.accepts_iff_reached, NFA.accepts_iff_reached, hreached]
  | dfa d =>
    have hending : d.ending v = d.ending w := Option.ext fun i => Set.ext_iff.mp h i
    simp only [accepts, DFA.accepts_eq_any, hending]

theorem mem_alphabet_of_accepts {a : Automaton α} {word : List α} (h : a.accepts word = true) :
    ∀ x ∈ word, x ∈ a.alphabet := by
  cases a with
  | nfa n =>
    obtain ⟨_, ⟨_, _, hleads⟩, _⟩ := NFA.accepts_iff_reached.mp h
    exact hleads.mem_alphabet
  | dfa d => exact DFA.mem_alphabet_of_accepts h

omit [DecidableEq α] in
theorem alphabet_nodup (a : Automaton α) : a.alphabet.Nodup := by
  cases a with
  | nfa n => exact n.alphabet_nodup
  | dfa d => exact d.alphabet_nodup

/-- Each word has a short one that leads to the same states of both automata. -/
theorem exists_short_word (a b : Automaton α) (word : List α) :
    ∃ v, v.length < a.capacity * b.capacity ∧ a.reached v = a.reached word ∧
      b.reached v = b.reached word := by
  obtain ⟨v, hv, hsame⟩ := Word.exists_short (f := fun w => (a.reached w, b.reached w))
    (a.situations_finite.prod b.situations_finite)
    (fun w => Set.mk_mem_prod (a.reached_mem w) (b.reached_mem w))
    (fun v w u h => Prod.ext (a.reached_append v w u (congrArg Prod.fst h))
      (b.reached_append v w u (congrArg Prod.snd h))) word
  rw [Set.ncard_prod] at hv
  exact ⟨v, hv.trans_le (Nat.mul_le_mul a.ncard_situations_le b.ncard_situations_le),
    congrArg Prod.fst hsame, congrArg Prod.snd hsame⟩

end Automaton

theorem distinguish?_eq_none_iff {a b : Automaton α} {bound : Nat} :
    distinguish? a b bound = none ↔
      ∀ word, word.length ≤ bound → (∀ x ∈ word, x ∈ a.alphabet) →
        a.accepts word = b.accepts word := by
  simp [distinguish?, Word.find?_eq, Word.mem_upTo]

variable [Ord α]

omit [DecidableEq α] in
theorem sorted_alphabet_eq_iff [Std.TransOrd α] [Std.LawfulEqOrd α] {a b : Automaton α} :
    sorted a.alphabet = sorted b.alphabet ↔ ∀ x, x ∈ a.alphabet ↔ x ∈ b.alphabet := by
  rw [sorted_eq_iff_perm]
  exact List.perm_ext_iff_of_nodup a.alphabet_nodup b.alphabet_nodup

/-- From a bound on that is one less than the number of pairs of situations, two automata that
pass the comparison have the same letters and the same language. -/
theorem sameLanguage_iff [Std.TransOrd α] [Std.LawfulEqOrd α] (a b : Automaton α) (bound : Nat)
    (h : a.capacity * b.capacity ≤ bound + 1) :
    sameLanguage a b bound = true ↔
      (∀ x, x ∈ a.alphabet ↔ x ∈ b.alphabet) ∧ ∀ word, a.accepts word = b.accepts word := by
  simp only [sameLanguage, Bool.and_eq_true, decide_eq_true_eq, Option.isNone_iff_eq_none,
    sorted_alphabet_eq_iff, distinguish?_eq_none_iff]
  refine and_congr_right fun hletters => ⟨?_, fun hall word _ _ => hall word⟩
  intro hshort word
  obtain ⟨v, hlength, ha, hb⟩ := a.exists_short_word b word
  rw [← Automaton.accepts_congr ha, ← Automaton.accepts_congr hb]
  -- A word that one of the two accepts is over the common alphabet.
  by_cases hv : ∀ x ∈ v, x ∈ a.alphabet
  · exact hshort v (by omega) hv
  · have hfirst : a.accepts v = false :=
      Bool.eq_false_iff.mpr fun haccepts => hv (Automaton.mem_alphabet_of_accepts haccepts)
    have hsecond : b.accepts v = false := Bool.eq_false_iff.mpr fun haccepts =>
      hv fun x hx => (hletters x).mpr (Automaton.mem_alphabet_of_accepts haccepts x hx)
    rw [hfirst, hsecond]

/-- Eight sets of states on one side, and three states or none on the other. -/
theorem sameLanguage_iff_lasso :
    ∃ d, (NFA.lasso.determinize {}).result = .ok d ∧
      (Automaton.nfa NFA.lasso).capacity * (Automaton.dfa d).capacity ≤ 31 + 1 ∧
      (sameLanguage (.nfa NFA.lasso) (.dfa d) 31 = true ↔
        (∀ x, x ∈ NFA.lasso.alphabet ↔ x ∈ d.alphabet) ∧
          ∀ word, NFA.lasso.accepts word = d.accepts word) := by
  obtain ⟨d, h⟩ := NFA.lasso_determinize
  have hsize : NFA.lasso.size = 3 := by decide +kernel
  have hbound : (Automaton.nfa NFA.lasso).capacity * (Automaton.dfa d).capacity ≤ 31 + 1 := by
    simp [Automaton.capacity, hsize, NFA.lasso_size h]
  exact ⟨d, h, hbound, sameLanguage_iff (.nfa NFA.lasso) (.dfa d) 31 hbound⟩

end Automata
