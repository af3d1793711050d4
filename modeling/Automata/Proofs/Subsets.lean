import Automata.Comparison
import Automata.Proofs.Outcome
import Mathlib.Data.Set.Card

namespace Automata

variable {α : Type} [DecidableEq α]

namespace Construction

variable {n : NFA α} {settings : Settings} {c : Construction n}

/-- The result follows the sets along a word. -/
theorem Finished.run (h : Finished settings c) {i : Nat} {s : StateSet}
    (hs : c.discovered[i]? = some s) {word : List α} (hword : ∀ a ∈ word, a ∈ n.alphabet) :
    ∃ t, c.dfa.run i word = some t ∧ c.discovered[t]? = some (n.run s word) := by
  induction word generalizing i s with
  | nil => exact ⟨i, rfl, hs⟩
  | cons a word ih =>
    obtain ⟨j, hj, hfollow⟩ := h.target hs (hword a List.mem_cons_self)
    obtain ⟨t, ht, hrun⟩ := ih hfollow fun b hb => hword b (List.mem_cons_of_mem a hb)
    refine ⟨t, ?_, hrun⟩
    rw [DFA.run_cons, hj]
    exact ht

theorem Finished.run_reached (h : Finished settings c) {word : List α}
    (hword : ∀ a ∈ word, a ∈ n.alphabet) :
    ∃ t s, c.dfa.run 0 word = some t ∧ c.discovered[t]? = some s ∧ s.toSet = n.reached word := by
  obtain ⟨i, hi, hfirst⟩ := h.first
  obtain ⟨t, ht, hrun⟩ := h.run hfirst hword
  exact ⟨t, _, ht, hrun, NFA.toSet_run hi word⟩

/-- Every state is reached by a word. -/
theorem Finished.word (h : Finished settings c) {t : Nat} (ht : t < c.dfa.size) :
    ∃ word, (∀ a ∈ word, a ∈ n.alphabet) ∧ c.dfa.run 0 word = some t := by
  have hlt : t < c.discovered.size := h.size ▸ ht
  have hs : c.discovered[t]? = some c.discovered[t] := Array.getElem?_eq_getElem hlt
  obtain ⟨i, word, hi, hword, harises⟩ := h.arises hs
  obtain ⟨u, s, hrun, hu, hset⟩ := h.run_reached hword
  refine ⟨word, hword, ?_⟩
  rw [← NFA.toSet_run hi word, ← harises] at hset
  rw [StateSet.toSet_injective hset] at hu
  rw [hrun, number_inj hu hs]

/-- The state with the number of a set stands for it. -/
theorem Sound.state {taken : Nat} {keys : List (Nat × α)} (h : Sound settings c taken keys)
    {t : Nat} {s : StateSet} (hs : c.discovered[t]? = some s) :
    c.dfa.state? t = some (n.stateFor s) := by
  rw [← Diagram.states_getElem?, h.states, List.getElem?_map, Array.getElem?_toList, hs]
  rfl

/-- The run of a word ends in the state that is named after the set of the word. -/
theorem Finished.run_named (h : Finished settings c) {word : List α}
    (hword : ∀ a ∈ word, a ∈ n.alphabet) :
    ∃ q state set, c.dfa.run 0 word = some q ∧ c.dfa.state? q = some state ∧
      set.toSet = n.reached word ∧ n.setName set = .ok state.name ∧
      (state.accepting = true ↔ ∃ i ∈ n.reached word, n.isFinal i = true) := by
  obtain ⟨q, set, hrun, hq, hset⟩ := h.run_reached hword
  have hbounded := c.bounded set (Array.mem_of_getElem? hq)
  refine ⟨q, n.stateFor set, set, hrun, h.state hq, hset, Diagram.setName_eq hbounded, ?_⟩
  rw [← hset]
  exact List.any_eq_true

/-- A finished construction accepts what the automaton it came from accepts. -/
theorem Finished.accepts (h : Finished settings c) (word : List α) :
    c.dfa.accepts word = n.accepts word := by
  apply Bool.eq_iff_iff.mpr
  rw [DFA.accepts_iff h.start, NFA.accepts_iff_reached]
  constructor
  · intro hd
    obtain ⟨t, ht, hfinal⟩ := hd
    have hword := DFA.mem_alphabet_of_run ht
    rw [h.alphabet] at hword
    obtain ⟨u, s, hu, hs, hset⟩ := h.run_reached hword
    obtain rfl := Option.some.inj (ht.symm.trans hu)
    rw [Diagram.isFinal_eq (h.state hs)] at hfinal
    obtain ⟨j, hj, hf⟩ := List.any_eq_true.mp hfinal
    exact ⟨j, hset ▸ hj, hf⟩
  · intro hn
    obtain ⟨j, hj, hf⟩ := hn
    obtain ⟨i, hi, hleads⟩ := hj
    obtain ⟨t, s, ht, hs, hset⟩ := h.run_reached hleads.mem_alphabet
    refine ⟨t, ht, ?_⟩
    rw [Diagram.isFinal_eq (h.state hs)]
    have hmem : j ∈ s.toSet := by
      rw [hset]
      exact ⟨i, hi, hleads⟩
    exact List.any_eq_true.mpr ⟨j, hmem, hf⟩

/-- Two words end in the same state exactly if they reach the same states. -/
theorem Finished.run_eq_iff (h : Finished settings c) {v w : List α}
    (hv : ∀ a ∈ v, a ∈ n.alphabet) (hw : ∀ a ∈ w, a ∈ n.alphabet) :
    c.dfa.run 0 v = c.dfa.run 0 w ↔ n.reached v = n.reached w := by
  obtain ⟨t, s, ht, hs, hset⟩ := h.run_reached hv
  obtain ⟨u, r, hu, hr, hset'⟩ := h.run_reached hw
  rw [ht, hu, ← hset, ← hset', StateSet.toSet_injective.eq_iff, Option.some.injEq]
  constructor
  · intro he
    subst he
    exact Option.some.inj (hs.symm.trans hr)
  · intro he
    subst he
    exact number_inj hs hr

/-- A set without members keeps to itself. -/
theorem follow_empty {s : StateSet} (hs : ∀ i, i ∉ s) (a : α) : n.follow s a = s := by
  apply StateSet.eq_of_mem_iff
  intro i
  exact iff_of_false (NFA.run_empty hs [a] i) (hs i)

/-- The state of the empty set is a trap and is not accepting. -/
theorem Finished.empty_state (h : Finished settings c) {t : Nat} {st : State}
    (ht : c.dfa.state? t = some st) (hname : st.name = "[]") :
    st.accepting = false ∧ ∀ a ∈ n.alphabet, c.dfa.target? t a = some t := by
  have hlt : t < c.discovered.size := h.size ▸ Roster.state?_eq_some_lt ht
  have hs : c.discovered[t]? = some c.discovered[t] := Array.getElem?_eq_getElem hlt
  obtain rfl := Option.some.inj (ht.symm.trans (h.state hs))
  have hnone := Diagram.stateFor_name_eq_empty.mp hname
  constructor
  · exact List.any_eq_false.mpr fun i hi => absurd hi (hnone i)
  · intro a ha
    obtain ⟨u, hu, hfollow⟩ := h.target hs ha
    rw [follow_empty hnone a] at hfollow
    rw [hu, number_inj hfollow hs]

/-- The empty set has a state exactly when some word leads nowhere. -/
theorem Finished.empty_state_iff (h : Finished settings c) :
    (∃ state ∈ c.dfa.states, state.name = "[]") ↔
      ∃ word, (∀ a ∈ word, a ∈ n.alphabet) ∧ n.reached word = ∅ := by
  constructor
  · intro hm
    obtain ⟨state, hstate, hname⟩ := hm
    obtain ⟨q, hq⟩ := List.mem_iff_getElem?.mp hstate
    rw [Diagram.states_getElem?] at hq
    obtain ⟨word, hword, hrun⟩ := h.word (Roster.state?_eq_some_lt hq)
    obtain ⟨t, set, ht, hset, hreached⟩ := h.run_reached hword
    obtain rfl := Option.some.inj (hrun.symm.trans ht)
    obtain rfl := Option.some.inj (hq.symm.trans (h.state hset))
    have hnone := Diagram.stateFor_name_eq_empty.mp hname
    refine ⟨word, hword, ?_⟩
    rw [← hreached]
    exact Set.eq_empty_iff_forall_notMem.mpr hnone
  · intro hw
    obtain ⟨word, hword, hnone⟩ := hw
    obtain ⟨q, set, _, hq, hset⟩ := h.run_reached hword
    refine ⟨n.stateFor set, List.mem_of_getElem? (Diagram.states_getElem? _ q ▸ h.state hq), ?_⟩
    apply Diagram.stateFor_name_eq_empty.mpr
    intro i hi
    have hmem : i ∈ n.reached word := hset ▸ hi
    rw [hnone] at hmem
    exact hmem

end Construction

namespace NFA

theorem run_of_determinize {n : NFA α} {settings : Settings} {d : DFA α}
    (h : (n.determinize settings).result = .ok d) :
    ∃ c : Construction n, Construction.run n settings = .ok c ∧ c.dfa = d := by
  unfold determinize at h
  cases hr : Construction.run n settings with
  | ok c =>
    rw [hr] at h
    exact ⟨c, rfl, Except.ok.inj h⟩
  | error halt =>
    rw [hr] at h
    cases h

/-- The result of a conversion is the automaton of a finished construction. -/
theorem finished_of_determinize {n : NFA α} {settings : Settings} {d : DFA α}
    (h : (n.determinize settings).result = .ok d) :
    ∃ c : Construction n, Construction.Finished settings c ∧ c.dfa = d := by
  obtain ⟨c, hr, hd⟩ := run_of_determinize h
  have hstart : n.start ≠ none := by
    intro hnone
    rw [Construction.run_missingStart settings hnone] at hr
    cases hr
  have hends := Construction.run_ends settings hstart
  rw [hr] at hends
  exact ⟨c, hends, hd⟩

/-- A conversion keeps the language: the result accepts the same words, of whatever letters, and
no comparison tells the two automata apart. -/
theorem determinize_preserves_language [Ord α] (n : NFA α) (settings : Settings) (d : DFA α)
    (h : (n.determinize settings).result = .ok d) :
    (∀ word, d.accepts word = n.accepts word) ∧
    ∀ bound, sameLanguage (.nfa n) (.dfa d) bound = true := by
  obtain ⟨c, hc, rfl⟩ := finished_of_determinize h
  refine ⟨hc.accepts, ?_⟩
  intro bound
  have hnone : distinguish? (.nfa n) (.dfa c.dfa) bound = none := by
    rw [distinguish?, Word.find?_eq, List.find?_eq_none]
    intro word _
    simp [Automaton.accepts, hc.accepts]
  simp [sameLanguage, Automaton.alphabet, hc.alphabet, hnone]

/-- Two states on a cycle of epsilon edges, a final state one letter away, and no way on from
there with that letter. -/
def lasso : NFA Char :=
  match build [.startState "p", .transition "p" .epsilon "q", .transition "q" .epsilon "p",
    .transition "q" (.symbol 'a') "r", .finalState "r", .transition "r" (.symbol 'b') "p"] with
  | .ok n => n
  | .error _ => empty

theorem lasso_start : lasso.start = some 0 := by decide +kernel

theorem lasso_determinize : ∃ d, (lasso.determinize {}).result = .ok d := by
  have hok : (lasso.determinize {}).result.isOk := by decide +kernel
  cases h : (lasso.determinize {}).result with
  | ok d => exact ⟨d, rfl⟩
  | error failure =>
    rw [h] at hok
    cases hok

/-- The sets are that of the cycle, that of the final state and the empty one. -/
theorem lasso_size {d : DFA Char} (h : (lasso.determinize {}).result = .ok d) : d.size = 3 := by
  have hthree : (lasso.determinize {}).result.toOption.map (·.size) = some 3 := by decide +kernel
  rw [h] at hthree
  exact Option.some.inj hthree

/-- A lasso with an epsilon cycle and a dead state keeps its language. -/
theorem determinize_preserves_language_lasso :
    ∃ d, (lasso.determinize {}).result = .ok d ∧ (∀ word, d.accepts word = lasso.accepts word) ∧
      ∀ bound, sameLanguage (.nfa lasso) (.dfa d) bound = true := by
  obtain ⟨d, h⟩ := lasso_determinize
  exact ⟨d, h, determinize_preserves_language lasso {} d h⟩

/-- The states of the result correspond to the sets of states that words over the alphabet lead
to: a word's run ends in the state named after the word's set, words end together exactly when
their sets are equal, and every state is the end of a run. The empty set is no exception. -/
theorem determinize_subset_correspondence (n : NFA α) (settings : Settings) (d : DFA α)
    (h : (n.determinize settings).result = .ok d) :
    ∃ start, d.start = some start ∧
      (∀ word, (∀ a ∈ word, a ∈ n.alphabet) → ∃ q state set,
        d.run start word = some q ∧ d.state? q = some state ∧
        set.toSet = n.reached word ∧ n.setName set = .ok state.name ∧
        (state.accepting = true ↔ ∃ i ∈ n.reached word, n.isFinal i = true)) ∧
      (∀ v w, (∀ a ∈ v, a ∈ n.alphabet) → (∀ a ∈ w, a ∈ n.alphabet) →
        (d.run start v = d.run start w ↔ n.reached v = n.reached w)) ∧
      (∀ q < d.size, ∃ word, (∀ a ∈ word, a ∈ n.alphabet) ∧ d.run start word = some q) ∧
      ((∃ state ∈ d.states, state.name = "[]") ↔
        ∃ word, (∀ a ∈ word, a ∈ n.alphabet) ∧ n.reached word = ∅) ∧
      (∀ q state, d.state? q = some state → state.name = "[]" →
        state.accepting = false ∧ ∀ a ∈ n.alphabet, d.target? q a = some q) := by
  obtain ⟨c, hc, rfl⟩ := finished_of_determinize h
  exact ⟨0, hc.start, fun word => hc.run_named, fun v w => hc.run_eq_iff, fun q => hc.word,
    hc.empty_state_iff, fun q state => hc.empty_state⟩

/-- No path has `b` first, so one state of the result is that of the empty set. -/
theorem determinize_subset_correspondence_lasso :
    ∃ d, (lasso.determinize {}).result = .ok d ∧ ∃ q state, d.state? q = some state ∧
      state.name = "[]" ∧ state.accepting = false ∧
      ∀ a ∈ lasso.alphabet, d.target? q a = some q := by
  obtain ⟨d, h⟩ := lasso_determinize
  obtain ⟨_, _, _, _, _, hempty, hloop⟩ := determinize_subset_correspondence lasso {} d h
  have hstart : lasso.start = some 0 := by decide +kernel
  have hstuck : (lasso.run (lasso.closure [0]) ['b']).isEmpty := by decide +kernel
  have hnone : lasso.reached ['b'] = ∅ := by
    rw [← toSet_run hstart]
    exact Set.eq_empty_iff_forall_notMem.mpr (StateSet.isEmpty_iff.mp hstuck)
  have hletter : 'b' ∈ lasso.alphabet := by decide +kernel
  have hword : ∀ a ∈ ['b'], a ∈ lasso.alphabet :=
    fun a ha => List.mem_singleton.mp ha ▸ hletter
  obtain ⟨state, hstate, hname⟩ := hempty.mpr ⟨['b'], hword, hnone⟩
  obtain ⟨q, hq⟩ := List.mem_iff_getElem?.mp hstate
  rw [Diagram.states_getElem?] at hq
  exact ⟨d, h, q, state, hq, hname, hloop q state hq hname⟩

end NFA

end Automata
