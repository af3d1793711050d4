import Automata.Proofs.Correspondence
import Automata.Proofs.Simulation

namespace Automata

variable {α : Type}

namespace NFA

variable {m n : NFA α}

theorem AgreeByName.symm (h : AgreeByName m n) : AgreeByName n m :=
  ⟨h.alphabet.symm, h.start.symm, h.names.symm, h.finals.symm, h.edges.symm⟩

/-- An accessible edge of one automaton has a counterpart between the states of the same names. -/
theorem AgreeByName.edge {i j i' : Nat} {label : Label α} (h : AgreeByName m n)
    (hi : m.Accessible i) (he : ⟨i, label, j⟩ ∈ m.edges) (hi' : n.Accessible i')
    (hname : n.nameOf i' = m.nameOf i) :
    ∃ j', ⟨i', label, j'⟩ ∈ n.edges ∧ n.nameOf j' = m.nameOf j := by
  have hmem : (m.nameOf i, label, m.nameOf j) ∈ n.accessibleEdges := h.edges ▸ ⟨_, he, hi, rfl⟩
  obtain ⟨⟨s, l, t⟩, he', hs, htriple⟩ := hmem
  simp only [Prod.mk.injEq] at htriple
  obtain ⟨hsource, rfl, htarget⟩ := htriple
  obtain rfl := hs.eq_of_nameOf hi' (hsource.symm.trans hname.symm)
  exact ⟨t, he', htarget.symm⟩

theorem exists_start_of_name {i : Nat}
    (hstart : m.startState?.map State.name = n.startState?.map State.name)
    (hi : m.start = some i) : ∃ i', n.start = some i' ∧ n.nameOf i' = m.nameOf i := by
  obtain ⟨s, hs⟩ := Diagram.state?_of_lt (m.start_lt i hi)
  rw [Diagram.startState?, hi, Option.bind_some, hs] at hstart
  obtain ⟨t, ht, hname⟩ := Option.map_eq_some_iff.mp hstart.symm
  obtain ⟨i', hi', ht⟩ := Option.bind_eq_some_iff.mp ht
  exact ⟨i', hi', by rw [Diagram.nameOf_eq ht, Diagram.nameOf_eq hs, hname]⟩

theorem AgreeByName.isFinal {i i' : Nat} (h : AgreeByName m n) (hi : m.Accessible i)
    (hi' : n.Accessible i') (hname : n.nameOf i' = m.nameOf i) (hfinal : m.isFinal i = true) :
    n.isFinal i' = true := by
  have hmem : m.nameOf i ∈ n.accessibleFinals := h.finals ▸ ⟨i, hi, rfl, hfinal⟩
  obtain ⟨k, hk, hsame, hfinal⟩ := hmem
  exact hk.eq_of_nameOf hi' (hsame.trans hname.symm) ▸ hfinal

theorem AgreeByName.simulatedBy (h : AgreeByName m n) : SimulatedBy m n where
  letters _ ha := h.alphabet ▸ ha
  start := exists_start_of_name h.start
  edge := h.edge
  final := h.isFinal

theorem AgreeByName.bisimilar (h : AgreeByName m n) : Bisimilar m n :=
  ⟨h.simulatedBy, h.symm.simulatedBy⟩

theorem SimulatedBy.start_name {i : Nat} (h : SimulatedBy m n) (hi : m.start = some i) :
    m.startState?.map State.name = n.startState?.map State.name := by
  obtain ⟨i', hi', hname⟩ := h.start hi
  obtain ⟨s, hs⟩ := Diagram.state?_of_lt (m.start_lt i hi)
  obtain ⟨s', hs'⟩ := Diagram.state?_of_lt (n.start_lt i' hi')
  rw [Diagram.nameOf_eq hs, Diagram.nameOf_eq hs'] at hname
  simp [Diagram.startState?, hi, hi', hs, hs', hname]

/-- Where two automata give one name to states that can do the same, it does not matter which of
these states can be reached. -/
theorem simulatedBy_of_names (letters : m.alphabet ⊆ n.alphabet)
    (start : m.startState?.map State.name = n.startState?.map State.name)
    (edge : ∀ e ∈ m.edges.toList, ∀ i' < n.size, n.nameOf i' = m.nameOf e.source →
      ∃ f ∈ n.edges.toList,
        f.source = i' ∧ f.label = e.label ∧ n.nameOf f.target = m.nameOf e.target)
    (final : ∀ i < m.size, ∀ i' < n.size, n.nameOf i' = m.nameOf i → m.isFinal i = true →
      n.isFinal i' = true) : SimulatedBy m n where
  letters _ ha := letters ha
  start := exists_start_of_name start
  edge := by
    intro i label j i' _ he hi' hname
    obtain ⟨⟨s, l, t⟩, hf, rfl, rfl, htarget⟩ :=
      edge _ (Array.mem_toList_iff.mpr he) i' hi'.lt hname
    exact ⟨t, Array.mem_toList_iff.mp hf, htarget⟩
  final := by
    intro i i' hi hi' hname
    exact final i hi.lt i' hi'.lt hname

/-- Agreement by name is the same as one alphabet and bisimilarity by name. -/
theorem agreeByName_iff : AgreeByName m n ↔ m.alphabet = n.alphabet ∧ Bisimilar m n := by
  refine ⟨fun h => ⟨h.alphabet, h.bisimilar⟩, ?_⟩
  rintro ⟨halphabet, hforth, hback⟩
  have hstart : m.startState?.map State.name = n.startState?.map State.name := by
    cases hi : m.start with
    | some i => exact hforth.start_name hi
    | none =>
      have hnone := hback.start_eq_none hi
      simp [Diagram.startState?, hi, hnone]
  exact ⟨halphabet, hstart, hforth.accessibleNames_subset.antisymm hback.accessibleNames_subset,
    hforth.accessibleFinals_subset.antisymm hback.accessibleFinals_subset,
    hforth.accessibleEdges_subset.antisymm hback.accessibleEdges_subset⟩

theorem AgreeByName.start_eq_none_iff (h : AgreeByName m n) : m.start = none ↔ n.start = none :=
  h.bisimilar.start_eq_none_iff

theorem AgreeByName.ncard_subsets_eq (h : AgreeByName m n) : m.subsets.ncard = n.subsets.ncard :=
  h.bisimilar.ncard_subsets_eq

end NFA

variable [DecidableEq α] {m n : NFA α}

namespace Construction

variable {settings other : Settings} {c : Construction m} {c' : Construction n}

/-- Constructions over automata that agree by name give results of the same shape. -/
theorem Finished.corresponds (h : m.AgreeByName n) (hc : Finished settings c)
    (hc' : Finished other c') : DFA.Corresponds id c.dfa c'.dfa where
  left := hc.breadthFirst
  right := hc'.breadthFirst
  injective := Function.injective_id
  alphabet := by rw [List.map_id, hc.alphabet, hc'.alphabet, h.alphabet]
  run_eq_iff v w hv hw := by
    rw [hc.alphabet] at hv hw
    rw [List.map_id, List.map_id, hc.run_eq_iff hv hw, h.bisimilar.reached_eq_iff,
      hc'.run_eq_iff (h.alphabet ▸ hv) (h.alphabet ▸ hw)]

/-- The results also have the same states, since set names are read off the members' names. -/
theorem Finished.states_eq (h : m.AgreeByName n) (hc : Finished settings c)
    (hc' : Finished other c') : c.dfa.states = c'.dfa.states := by
  have hcorresponds := hc.corresponds h hc'
  apply List.ext_getElem?
  intro i
  by_cases hi : i < c.dfa.size
  · obtain ⟨word, hword, hrun⟩ := hc.word hi
    obtain ⟨t, t', state, ht, ht', hstate, hstate'⟩ := hc.counterpart h.bisimilar hc' hword
    obtain rfl := Option.some.inj (hrun.symm.trans ht)
    have hsame := hcorresponds.run_map (hc.alphabet ▸ hword)
    rw [List.map_id, ht', hrun] at hsame
    obtain rfl := Option.some.inj hsame
    rw [Diagram.states_getElem?, Diagram.states_getElem?, hstate, hstate']
  · rw [List.getElem?_eq_none (by simpa using hi),
      List.getElem?_eq_none (by simpa [hcorresponds.size_eq] using hi)]

theorem Finished.dfa_eq (h : m.AgreeByName n) (hc : Finished settings c)
    (hc' : Finished other c') : c.dfa = c'.dfa := by
  have hcorresponds := hc.corresponds h hc'
  have hedges := hcorresponds.edges_eq
  simp only [id, List.map_id'] at hedges
  exact DFA.eq_of_parts (hc.states_eq h hc') (hc.start.trans hc'.start.symm)
    (Array.toList_inj.mp hedges.symm) (by rw [hc.alphabet, hc'.alphabet, h.alphabet])

end Construction

namespace NFA

/-- Automata that have one alphabet and agree by name on what can be reached from the start have
one result, be it an error or an automaton. -/
theorem determinize_eq_of_agreeByName (m n : NFA α) (settings : Settings) (h : AgreeByName m n) :
    (m.determinize settings).result = (n.determinize settings).result := by
  by_cases hstart : m.start = none
  · rw [m.determinize_missingStart settings hstart,
      n.determinize_missingStart settings (h.start_eq_none_iff.mp hstart)]
  · have hstart' : n.start ≠ none := fun hnone => hstart (h.start_eq_none_iff.mpr hnone)
    have hcard := h.ncard_subsets_eq
    rcases m.determinize_of_start settings hstart with ⟨d, hd, _, hle⟩ | ⟨max, hm, hlt, he⟩ <;>
    rcases n.determinize_of_start settings hstart' with ⟨d', hd', _, hle'⟩ | ⟨max', hm', hlt', he'⟩
    · obtain ⟨c, hc, rfl⟩ := finished_of_determinize hd
      obtain ⟨c', hc', rfl⟩ := finished_of_determinize hd'
      rw [hd, hd', hc.dfa_eq h hc']
    · exact absurd (hle max' hm') (by omega)
    · exact absurd (hle' max hm) (by omega)
    · obtain rfl := Option.some.inj (hm.symm.trans hm')
      rw [he, he']

/-- The lasso with its states and edges in another order, and a state that nothing leads to. -/
def shuffledLasso : NFA Char :=
  match build [.state "x", .finalState "r", .transition "q" .epsilon "p",
    .transition "q" (.symbol 'a') "r", .transition "x" (.symbol 'a') "p",
    .transition "r" (.symbol 'b') "p", .transition "p" .epsilon "q", .startState "p"] with
  | .ok n => n
  | .error _ => empty

/-- A lasso and a copy with its states and edges shuffled give the same result. -/
theorem determinize_eq_of_agreeByName_lasso :
    AgreeByName lasso shuffledLasso ∧
      (lasso.determinize {}).result = (shuffledLasso.determinize {}).result := by
  have hforth : SimulatedBy lasso shuffledLasso :=
    simulatedBy_of_names (by decide +kernel) (by decide +kernel) (by decide +kernel)
      (by decide +kernel)
  have hback : SimulatedBy shuffledLasso lasso :=
    simulatedBy_of_names (by decide +kernel) (by decide +kernel) (by decide +kernel)
      (by decide +kernel)
  have h : AgreeByName lasso shuffledLasso :=
    agreeByName_iff.mpr ⟨by decide +kernel, hforth, hback⟩
  exact ⟨h, determinize_eq_of_agreeByName lasso shuffledLasso {} h⟩

end NFA

end Automata
