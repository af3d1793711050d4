import Automata.Proofs.Independence
import Automata.Proofs.Subsets

namespace Automata

variable {α : Type} [DecidableEq α]

namespace NFA

variable {n : NFA α}

theorem Arises.mem_subsets {s : StateSet} (h : n.Arises s) : s.toSet ∈ n.subsets := by
  obtain ⟨i, word, hi, hword, rfl⟩ := h
  exact ⟨word, hword, (toSet_run hi word).symm⟩

end NFA

theorem StateSet.ncard_toSet_image {sets : List StateSet} (h : sets.Nodup) :
    (toSet '' {s | s ∈ sets}).ncard = sets.length := by
  rw [Set.ncard_image_of_injective _ toSet_injective, ← List.coe_toFinset, Set.ncard_coe_finset,
    List.toFinset_card_of_nodup h]

namespace Construction

variable {n : NFA α} {settings : Settings} {c : Construction n}

theorem toSet_image_subset {sets : List StateSet} (h : ∀ s ∈ sets, n.Arises s) :
    StateSet.toSet '' {s | s ∈ sets} ⊆ n.subsets := by
  intro states hs
  obtain ⟨s, hs, rfl⟩ := hs
  exact (h s hs).mem_subsets

/-- A finished construction has discovered the sets of all words, and no others. -/
theorem Finished.toSet_image (h : Finished settings c) :
    StateSet.toSet '' {s | s ∈ c.discovered.toList} = n.subsets := by
  apply Set.Subset.antisymm
  · apply toSet_image_subset
    exact fun s hs => h.arises_of_mem s (Array.mem_toList_iff.mp hs)
  · intro states hs
    obtain ⟨word, hword, rfl⟩ := hs
    obtain ⟨t, s, _, hs, hset⟩ := h.run_reached hword
    exact ⟨s, Array.mem_toList_iff.mpr (Array.mem_of_getElem? hs), hset⟩

theorem Finished.ncard_subsets (h : Finished settings c) : n.subsets.ncard = c.dfa.size := by
  rw [← h.toSet_image, StateSet.ncard_toSet_image c.distinct, Array.length_toList, h.size]

theorem Stopped.lt_ncard_subsets {halt : Halt α} (h : Stopped n settings halt) :
    ∃ max, settings.maxStates = some max ∧ max.toNat < n.subsets.ncard ∧
      halt.failure = .refused (.limitExceeded (max.toNat + 1) max.toNat) := by
  obtain ⟨max, hm, hfailure, sets, hnodup, hlength, harises⟩ := h
  refine ⟨max, hm, ?_, hfailure⟩
  have hle := Set.ncard_le_ncard (toSet_image_subset harises) n.subsets_finite
  rw [StateSet.ncard_toSet_image hnodup, hlength] at hle
  exact hle

end Construction

namespace NFA

variable (n : NFA α) (settings : Settings)

theorem determinize_missingStart (hnone : n.start = none) :
    (n.determinize settings).result = .error (.refused .missingStart) := by
  rw [determinize, Construction.run_missingStart settings hnone]

/-- From a start there is a result for all reachable subsets, or a limit below their number. -/
theorem determinize_of_start (hstart : n.start ≠ none) :
    (∃ d, (n.determinize settings).result = .ok d ∧ d.size = n.subsets.ncard ∧
      ∀ max, settings.maxStates = some max → n.subsets.ncard ≤ max.toNat) ∨
    ∃ max, settings.maxStates = some max ∧ max.toNat < n.subsets.ncard ∧
      (n.determinize settings).result =
        .error (.refused (.limitExceeded (max.toNat + 1) max.toNat)) := by
  have hends := Construction.run_ends settings hstart
  unfold determinize
  cases hr : Construction.run n settings with
  | ok c =>
    rw [hr] at hends
    left
    refine ⟨c.dfa, rfl, hends.ncard_subsets.symm, ?_⟩
    intro max hm
    rw [hends.ncard_subsets, hends.size]
    exact hends.within max hm
  | error halt =>
    rw [hr] at hends
    right
    obtain ⟨max, hm, hlt, hfailure⟩ := hends.lt_ncard_subsets
    exact ⟨max, hm, hlt, congrArg Except.error hfailure⟩

/-- Only an automaton without a start is refused for it. -/
theorem determinize_missingStart_iff :
    (n.determinize settings).result = .error (.refused .missingStart) ↔ n.start = none := by
  constructor
  · intro h
    apply Classical.byContradiction
    intro hstart
    rcases n.determinize_of_start settings hstart with ⟨d, hd, _⟩ | ⟨max, _, _, he⟩
    · rw [hd] at h
      cases h
    · rw [he] at h
      cases h
  · exact n.determinize_missingStart settings

/-- The limit is reported exactly where there are more reachable subsets than it allows. -/
theorem determinize_limitExceeded_iff (hstart : n.start ≠ none) (max : UInt64) :
    (n.determinize settings).result =
        .error (.refused (.limitExceeded (max.toNat + 1) max.toNat)) ↔
      settings.maxStates = some max ∧ max.toNat < n.subsets.ncard := by
  rcases n.determinize_of_start settings hstart with ⟨d, hd, _, hle⟩ | ⟨limit, hm, hlt, he⟩
  · constructor
    · intro h
      rw [hd] at h
      cases h
    · intro h
      exact absurd (hle max h.1) (Nat.not_le.mpr h.2)
  · constructor
    · intro h
      rw [he] at h
      injection h with h
      injection h with h
      injection h with _ hmax
      obtain rfl := UInt64.toNat_inj.mp hmax
      exact ⟨hm, hlt⟩
    · intro h
      obtain rfl := Option.some.inj (hm.symm.trans h.1)
      exact he

theorem determinize_within (hstart : n.start ≠ none)
    (hwithin : ¬ ∃ max, settings.maxStates = some max ∧ max.toNat < n.subsets.ncard) :
    ∃ d, (n.determinize settings).result = .ok d ∧ d.size = n.subsets.ncard := by
  rcases n.determinize_of_start settings hstart with ⟨d, hd, hsize, _⟩ | ⟨max, hm, hlt, _⟩
  · exact ⟨d, hd, hsize⟩
  · exact absurd ⟨max, hm, hlt⟩ hwithin

theorem determinize_same {other : Settings} {d e : DFA α}
    (hd : (n.determinize settings).result = .ok d) (he : (n.determinize other).result = .ok e) :
    d = e := by
  obtain ⟨c₁, hr₁, rfl⟩ := run_of_determinize hd
  obtain ⟨c₂, hr₂, rfl⟩ := run_of_determinize he
  exact (Construction.run_same hr₁ hr₂).dfa

/-- Two conversions are refused alike, or both succeed, if both automata have a start state or none
and words lead to as many sets of states. -/
theorem determinize_alike {β : Type} [DecidableEq β] {m : NFA α} {n : NFA β}
    (hstart : m.start = none ↔ n.start = none) (hcard : m.subsets.ncard = n.subsets.ncard)
    (settings : Settings) :
    (∃ error, (m.determinize settings).result = .error (.refused error) ∧
      (n.determinize settings).result = .error (.refused error)) ∨
    ∃ d e, (m.determinize settings).result = .ok d ∧
      (n.determinize settings).result = .ok e := by
  by_cases hnone : m.start = none
  · exact .inl ⟨.missingStart, m.determinize_missingStart settings hnone,
      n.determinize_missingStart settings (hstart.mp hnone)⟩
  have hnone' : n.start ≠ none := fun h => hnone (hstart.mpr h)
  by_cases hover : ∃ max, settings.maxStates = some max ∧ max.toNat < m.subsets.ncard
  · obtain ⟨max, hmax, hlt⟩ := hover
    exact .inl ⟨.limitExceeded (max.toNat + 1) max.toNat,
      (m.determinize_limitExceeded_iff settings hnone max).mpr ⟨hmax, hlt⟩,
      (n.determinize_limitExceeded_iff settings hnone' max).mpr ⟨hmax, hcard ▸ hlt⟩⟩
  · obtain ⟨d, hd, _⟩ := m.determinize_within settings hnone hover
    rw [hcard] at hover
    obtain ⟨e, he, _⟩ := n.determinize_within settings hnone' hover
    exact .inr ⟨d, e, hd, he⟩

/-- The outcome of a conversion by the number of sets of states that words lead to, which is finite.
Without a start state there is none, with more sets than the limit it is stopped at the first one
too many, and otherwise each set has a state. What it makes does not depend on the settings. -/
theorem determinize_outcome :
    n.subsets.Finite ∧
    ((n.determinize settings).result = .error (.refused .missingStart) ↔ n.start = none) ∧
    (n.start ≠ none →
      (∀ max : UInt64,
        (n.determinize settings).result =
            .error (.refused (.limitExceeded (max.toNat + 1) max.toNat)) ↔
          settings.maxStates = some max ∧ max.toNat < n.subsets.ncard) ∧
      ((¬ ∃ max, settings.maxStates = some max ∧ max.toNat < n.subsets.ncard) →
        ∃ d, (n.determinize settings).result = .ok d ∧ d.size = n.subsets.ncard)) ∧
    (∀ other d e, (n.determinize settings).result = .ok d →
      (n.determinize other).result = .ok e → d = e) := by
  refine ⟨n.subsets_finite, n.determinize_missingStart_iff settings, ?_,
    fun other d e => n.determinize_same settings⟩
  intro hstart
  exact ⟨n.determinize_limitExceeded_iff settings hstart, n.determinize_within settings hstart⟩

end NFA

end Automata
