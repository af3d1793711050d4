import Automata.Proofs.Accessible
import Automata.Proofs.BreadthFirst
import Automata.Proofs.Limit

namespace Automata

variable {α : Type}

namespace NFA

/-- What can happen from the start of the first automaton can happen in the second, through states
of the same names. -/
structure SimulatedBy (m n : NFA α) : Prop where
  letters : ∀ a ∈ m.alphabet, a ∈ n.alphabet
  start : ∀ {i}, m.start = some i → ∃ i', n.start = some i' ∧ n.nameOf i' = m.nameOf i
  edge : ∀ {i label j i'}, m.Accessible i → ⟨i, label, j⟩ ∈ m.edges → n.Accessible i' →
    n.nameOf i' = m.nameOf i → ∃ j', ⟨i', label, j'⟩ ∈ n.edges ∧ n.nameOf j' = m.nameOf j
  final : ∀ {i i'}, m.Accessible i → n.Accessible i' → n.nameOf i' = m.nameOf i →
    m.isFinal i = true → n.isFinal i' = true

structure Bisimilar (m n : NFA α) : Prop where
  forth : SimulatedBy m n
  back : SimulatedBy n m

def reachedNames (n : NFA α) (word : List α) : Set String :=
  n.nameOf '' n.reached word

variable {m n : NFA α}

theorem nameOf_injOn (n : NFA α) : Set.InjOn n.nameOf {i | i < n.size} :=
  fun _ hi _ hj h => Diagram.nameOf_inj hi hj h

theorem reached_eq_iff_reachedNames_eq {v w : List α} :
    n.reached v = n.reached w ↔ n.reachedNames v = n.reachedNames w :=
  (n.nameOf_injOn.image_eq_image_iff (fun _ => reached_lt) (fun _ => reached_lt)).symm

/-- The sets of states that words lead to are known by the names in them. -/
theorem image_nameOf_injOn (n : NFA α) : Set.InjOn (n.nameOf '' ·) n.subsets := by
  intro s hs t ht hnames
  obtain ⟨v, _, rfl⟩ := hs
  obtain ⟨w, _, rfl⟩ := ht
  exact reached_eq_iff_reachedNames_eq.mpr hnames

theorem mem_names_iff {s : StateSet} {word : List α} (hs : s.toSet = n.reached word)
    {name : String} : name ∈ s.toList.map n.nameOf ↔ name ∈ n.reachedNames word := by
  rw [reachedNames, ← hs, List.mem_map]
  rfl

theorem names_nodup_of_reached {s : StateSet} {word : List α} (hs : s.toSet = n.reached word) :
    (s.toList.map n.nameOf).Nodup := by
  have hlt : ∀ i ∈ s.toList, i < n.size := by
    intro i hi
    have hmem : i ∈ n.reached word := hs ▸ hi
    exact reached_lt hmem
  apply List.Nodup.map_on
  · exact fun i hi j hj => Diagram.nameOf_inj (hlt i hi) (hlt j hj)
  · exact s.ascending.imp Nat.ne_of_lt

namespace SimulatedBy

/-- A path from an accessible state has a counterpart through states of the same names. -/
theorem path {i j i' : Nat} {labels : List (Label α)} (h : SimulatedBy m n)
    (hp : m.Path i labels j) (hi : m.Accessible i) (hi' : n.Accessible i')
    (hname : n.nameOf i' = m.nameOf i) :
    ∃ j', n.Path i' labels j' ∧ n.nameOf j' = m.nameOf j := by
  induction hp generalizing i' with
  | nil i => exact ⟨i', .nil i', hname⟩
  | @cons i j k label labels he _ ih =>
    obtain ⟨j', he', hj⟩ := h.edge hi he hi' hname
    have hnext := hi.path (.cons he (.nil j))
    have hnext' := hi'.path (.cons he' (.nil j'))
    obtain ⟨k', hp', hk⟩ := ih hnext hnext' hj
    exact ⟨k', .cons he' hp', hk⟩

theorem accessible {i : Nat} (h : SimulatedBy m n) (hi : m.Accessible i) :
    ∃ i', n.Accessible i' ∧ n.nameOf i' = m.nameOf i := by
  obtain ⟨start, labels, hstart, hp⟩ := hi
  obtain ⟨start', hstart', hname⟩ := h.start hstart
  obtain ⟨i', hp', hname'⟩ :=
    h.path hp ⟨start, [], hstart, .nil start⟩ ⟨start', [], hstart', .nil start'⟩ hname
  exact ⟨i', ⟨start', labels, hstart', hp'⟩, hname'⟩

theorem accessibleNames_subset (h : SimulatedBy m n) : m.accessibleNames ⊆ n.accessibleNames := by
  rintro name ⟨i, hi, rfl⟩
  exact h.accessible hi

theorem accessibleFinals_subset (h : SimulatedBy m n) :
    m.accessibleFinals ⊆ n.accessibleFinals := by
  rintro name ⟨i, hi, rfl, hfinal⟩
  obtain ⟨i', hi', hname⟩ := h.accessible hi
  exact ⟨i', hi', hname, h.final hi hi' hname hfinal⟩

theorem accessibleEdges_subset (h : SimulatedBy m n) : m.accessibleEdges ⊆ n.accessibleEdges := by
  rintro t ⟨e, he, hi, rfl⟩
  obtain ⟨i', hi', hname⟩ := h.accessible hi
  obtain ⟨j', he', hname'⟩ := h.edge hi he hi' hname
  exact ⟨⟨i', e.label, j'⟩, he', hi', by rw [hname, hname']⟩

theorem reachedNames_subset (h : SimulatedBy m n) (word : List α) :
    m.reachedNames word ⊆ n.reachedNames word := by
  intro name hname
  obtain ⟨j, ⟨i, hi, labels, hp, hw⟩, rfl⟩ := hname
  obtain ⟨i', hi', hname⟩ := h.start hi
  obtain ⟨j', hp', hj⟩ := h.path hp ⟨i, [], hi, .nil i⟩ ⟨i', [], hi', .nil i'⟩ hname
  exact ⟨j', ⟨i', hi', labels, hp', hw⟩, hj⟩

theorem start_eq_none (h : SimulatedBy m n) (hnone : n.start = none) : m.start = none := by
  apply Option.eq_none_iff_forall_ne_some.mpr
  intro i hi
  obtain ⟨i', hi', _⟩ := h.start hi
  rw [hnone] at hi'
  cases hi'

/-- A final member of one simulated set has a final counterpart in the other. -/
theorem any_final {s t : StateSet} {word : List α} (h : SimulatedBy m n)
    (hs : s.toSet = m.reached word) (ht : t.toSet = n.reached word)
    (hany : s.toList.any m.isFinal) : t.toList.any n.isFinal := by
  obtain ⟨i, hi, hfinal⟩ := List.any_eq_true.mp hany
  have hi : i ∈ m.reached word := hs ▸ hi
  have hname : m.nameOf i ∈ m.reachedNames word := ⟨i, hi, rfl⟩
  obtain ⟨j, hj, hsame⟩ := h.reachedNames_subset word hname
  have hfinal := h.final (accessible_of_reached hi) (accessible_of_reached hj) hsame hfinal
  rw [← ht] at hj
  exact List.any_eq_true.mpr ⟨j, hj, hfinal⟩

end SimulatedBy

namespace Bisimilar

theorem symm (h : Bisimilar m n) : Bisimilar n m :=
  ⟨h.back, h.forth⟩

theorem mem_alphabet_iff (h : Bisimilar m n) (a : α) : a ∈ m.alphabet ↔ a ∈ n.alphabet :=
  ⟨h.forth.letters a, h.back.letters a⟩

theorem start_eq_none_iff (h : Bisimilar m n) : m.start = none ↔ n.start = none :=
  ⟨h.back.start_eq_none, h.forth.start_eq_none⟩

theorem reachedNames_eq (h : Bisimilar m n) (word : List α) :
    m.reachedNames word = n.reachedNames word :=
  Set.Subset.antisymm (h.forth.reachedNames_subset word) (h.back.reachedNames_subset word)

theorem reached_eq_iff (h : Bisimilar m n) {v w : List α} :
    m.reached v = m.reached w ↔ n.reached v = n.reached w := by
  rw [reached_eq_iff_reachedNames_eq, reached_eq_iff_reachedNames_eq, h.reachedNames_eq,
    h.reachedNames_eq]

theorem image_subsets_eq (h : Bisimilar m n) :
    (m.nameOf '' ·) '' m.subsets = (n.nameOf '' ·) '' n.subsets := by
  have half : ∀ {a b : NFA α}, Bisimilar a b →
      (a.nameOf '' ·) '' a.subsets ⊆ (b.nameOf '' ·) '' b.subsets := by
    intro a b hab names hnames
    obtain ⟨states, ⟨word, hword, rfl⟩, rfl⟩ := hnames
    have hword' : ∀ l ∈ word, l ∈ b.alphabet := fun l hl => hab.forth.letters l (hword l hl)
    exact ⟨b.reached word, ⟨word, hword', rfl⟩, (hab.reachedNames_eq word).symm⟩
  exact Set.Subset.antisymm (half h) (half h.symm)

theorem ncard_subsets_eq (h : Bisimilar m n) : m.subsets.ncard = n.subsets.ncard := by
  rw [← m.image_nameOf_injOn.ncard_image, h.image_subsets_eq, n.image_nameOf_injOn.ncard_image]

/-- The sets that a word leads to have one name and one final mark. -/
theorem stateFor_eq {s t : StateSet} {word : List α} (h : Bisimilar m n)
    (hs : s.toSet = m.reached word) (ht : t.toSet = n.reached word) :
    m.stateFor s = n.stateFor t := by
  have hname : canonicalName (s.toList.map m.nameOf) = canonicalName (t.toList.map n.nameOf) := by
    apply canonicalName_congr
    apply (List.perm_ext_iff_of_nodup (names_nodup_of_reached hs) (names_nodup_of_reached ht)).mpr
    intro name
    rw [mem_names_iff hs, mem_names_iff ht, h.reachedNames_eq]
  have hfinal : s.toList.any m.isFinal = t.toList.any n.isFinal :=
    Bool.eq_iff_iff.mpr ⟨h.forth.any_final hs ht, h.back.any_final ht hs⟩
  simp only [Diagram.stateFor, hname, hfinal]

end Bisimilar

end NFA

variable [DecidableEq α]

namespace DFA

/-- Complete automata with the same letters, the same states and the same edges, whatever the
handles and the order of the letters. Same states have the same name and the same mark. -/
structure AgreeByName (d e : DFA α) : Prop where
  alphabet : d.alphabet.Perm e.alphabet
  start : ∃ state, d.startState? = some state ∧ e.startState? = some state
  states : ∀ state, state ∈ d.states ↔ state ∈ e.states
  targets : ∀ state ∈ d.states, ∀ a ∈ d.alphabet, ∃ target,
    d.targetNamed state.name a = .ok (some target) ∧ e.targetNamed state.name a = .ok (some target)

theorem targetNamed_eq {d : DFA α} {i j : Nat} {a : α} {source target : State}
    (hi : d.state? i = some source) (hedge : d.target? i a = some j)
    (hj : d.state? j = some target) : d.targetNamed source.name a = .ok (some target) := by
  rw [targetNamed, Diagram.require_eq hi]
  exact congrArg Except.ok (by rw [hedge, Option.bind_some, hj])

end DFA

variable {m n : NFA α}

namespace Construction

variable {settings other : Settings} {c : Construction m} {c' : Construction n}

/-- A word ends in the same state, up to its handle. -/
theorem Finished.counterpart (h : m.Bisimilar n) (hc : Finished settings c)
    (hc' : Finished other c') {word : List α} (hword : ∀ a ∈ word, a ∈ m.alphabet) :
    ∃ t t' state, c.dfa.run 0 word = some t ∧ c'.dfa.run 0 word = some t' ∧
      c.dfa.state? t = some state ∧ c'.dfa.state? t' = some state := by
  obtain ⟨t, s, ht, hs, hreached⟩ := hc.run_reached hword
  obtain ⟨t', s', ht', hs', hreached'⟩ :=
    hc'.run_reached fun a ha => h.forth.letters a (hword a ha)
  refine ⟨t, t', m.stateFor s, ht, ht', hc.state hs, ?_⟩
  rw [hc'.state hs', h.stateFor_eq hreached hreached']

/-- Every state is the end of a word, and so is in both results. -/
theorem Finished.shared (h : m.Bisimilar n) (hc : Finished settings c) (hc' : Finished other c')
    {state : State} (hstate : state ∈ c.dfa.states) :
    ∃ word t t', (∀ a ∈ word, a ∈ m.alphabet) ∧ c.dfa.run 0 word = some t ∧
      c'.dfa.run 0 word = some t' ∧ c.dfa.state? t = some state ∧
      c'.dfa.state? t' = some state := by
  obtain ⟨q, hq⟩ := List.mem_iff_getElem?.mp hstate
  rw [Diagram.states_getElem?] at hq
  obtain ⟨word, hword, hrun⟩ := hc.word (Roster.state?_eq_some_lt hq)
  obtain ⟨t, t', found, ht, ht', hs, hs'⟩ := hc.counterpart h hc' hword
  obtain rfl := Option.some.inj (hrun.symm.trans ht)
  obtain rfl := Option.some.inj (hq.symm.trans hs)
  exact ⟨word, q, t', hword, hrun, ht', hs, hs'⟩

theorem Finished.states_subset (h : m.Bisimilar n) (hc : Finished settings c)
    (hc' : Finished other c') : ∀ state ∈ c.dfa.states, state ∈ c'.dfa.states := by
  intro state hstate
  obtain ⟨_, _, t', _, _, _, _, hs'⟩ := hc.shared h hc' hstate
  exact List.mem_of_getElem? (Diagram.states_getElem? _ t' ▸ hs')

/-- A word and the same word with one more letter end where an edge begins and ends. -/
theorem Finished.targetNamed (h : m.Bisimilar n) (hc : Finished settings c)
    (hc' : Finished other c') {state : State} (hstate : state ∈ c.dfa.states) {a : α}
    (ha : a ∈ m.alphabet) : ∃ target, c.dfa.targetNamed state.name a = .ok (some target) ∧
      c'.dfa.targetNamed state.name a = .ok (some target) := by
  obtain ⟨word, t, t', hword, ht, ht', hs, hs'⟩ := hc.shared h hc' hstate
  have hlonger : ∀ b ∈ word ++ [a], b ∈ m.alphabet := by
    intro b hb
    rcases List.mem_append.mp hb with hb | hb
    · exact hword b hb
    · exact List.mem_singleton.mp hb ▸ ha
  obtain ⟨u, u', target, hu, hu', htarget, htarget'⟩ := hc.counterpart h hc' hlonger
  rw [DFA.run_concat, ht, Option.bind_some] at hu
  rw [DFA.run_concat, ht', Option.bind_some] at hu'
  exact ⟨target, DFA.targetNamed_eq hs hu htarget, DFA.targetNamed_eq hs' hu' htarget'⟩

/-- Bisimilar automata give results that agree by name. -/
theorem Finished.agreeByName (h : m.Bisimilar n) (hc : Finished settings c)
    (hc' : Finished other c') : c.dfa.AgreeByName c'.dfa where
  alphabet := by
    rw [hc.alphabet, hc'.alphabet]
    exact (List.perm_ext_iff_of_nodup m.alphabet_nodup n.alphabet_nodup).mpr h.mem_alphabet_iff
  start := by
    obtain ⟨t, t', state, ht, ht', hstate, hstate'⟩ := hc.counterpart h hc' (List.forall_mem_nil _)
    cases ht
    cases ht'
    refine ⟨state, ?_, ?_⟩
    · rw [Diagram.startState?, hc.start, Option.bind_some, hstate]
    · rw [Diagram.startState?, hc'.start, Option.bind_some, hstate']
  states _ := ⟨hc.states_subset h hc' _, hc'.states_subset h.symm hc _⟩
  targets state hstate a ha := hc.targetNamed h hc' hstate (hc.alphabet ▸ ha)

end Construction

/-- Conversions of automata in which the same can happen are refused alike, or both finish and the
results agree by name. -/
theorem NFA.Bisimilar.determinize (h : m.Bisimilar n) (settings : Settings) :
    (∃ error, (m.determinize settings).result = .error (.refused error) ∧
      (n.determinize settings).result = .error (.refused error)) ∨
    ∃ d e, (m.determinize settings).result = .ok d ∧ (n.determinize settings).result = .ok e ∧
      d.AgreeByName e := by
  rcases determinize_alike h.start_eq_none_iff h.ncard_subsets_eq settings with
    hrefused | ⟨d, e, hd, he⟩
  · exact .inl hrefused
  · obtain ⟨c, hc, rfl⟩ := finished_of_determinize hd
    obtain ⟨c', hc', rfl⟩ := finished_of_determinize he
    exact .inr ⟨c.dfa, c'.dfa, hd, he, hc.agreeByName h hc'⟩

end Automata
