import Automata.Construction
import Automata.Proofs.DFA

namespace Automata.Construction

variable {α : Type} {n : NFA α}

/-- Two constructions that can differ in their logs only. -/
structure SameWork (c₁ c₂ : Construction n) : Prop where
  dfa : c₁.dfa = c₂.dfa
  discovered : c₁.discovered = c₂.discovered
  pending : c₁.pending = c₂.pending

theorem reportProgress_same (c : Construction n) (interval : Nat) :
    SameWork (c.reportProgress interval) c := by
  unfold reportProgress
  split <;> exact ⟨rfl, rfl, rfl⟩

theorem SameWork.symm {c₁ c₂ : Construction n} (h : SameWork c₁ c₂) : SameWork c₂ c₁ :=
  ⟨h.dfa.symm, h.discovered.symm, h.pending.symm⟩

theorem SameWork.trans {c₁ c₂ c₃ : Construction n} (h : SameWork c₁ c₂) (h' : SameWork c₂ c₃) :
    SameWork c₁ c₃ :=
  ⟨h.dfa.trans h'.dfa, h.discovered.trans h'.discovered, h.pending.trans h'.pending⟩

def discovery (n : NFA α) (settings : Settings) (s : StateSet) (discovered pending : Nat) :
    List (Event α) :=
  .discovered (n.stateFor s).name (n.stateFor s).accepting ::
    if 0 < settings.progressInterval.toNat ∧ discovered % settings.progressInterval.toNat = 0 then
      [.progress discovered pending]
    else []

/-- One more set is discovered: it has a state without edges, and it waits behind the others. -/
structure Grown (settings : Settings) (s : StateSet) (c c' : Construction n) : Prop where
  states : c'.dfa.states = c.dfa.states ++ [n.stateFor s]
  edges : c'.dfa.edges = c.dfa.edges
  start : c'.dfa.start = c.dfa.start
  alphabet : c'.dfa.alphabet = c.dfa.alphabet
  discovered : c'.discovered = c.discovered.push s
  pending : c'.pending = c.pending ++ [s]
  log : c'.log.toList =
    c.log.toList ++ discovery n settings s (c.discovered.size + 1) (c.pending.length + 1)

/-- The result has one more edge, and that is all. -/
structure Linked (i : Nat) (a : α) (t : Nat) (c c' : Construction n) : Prop where
  states : c'.dfa.states = c.dfa.states
  edges : c'.dfa.edges = c.dfa.edges.push ⟨i, a, t⟩
  start : c'.dfa.start = c.dfa.start
  alphabet : c'.dfa.alphabet = c.dfa.alphabet
  discovered : c'.discovered = c.discovered
  pending : c'.pending = c.pending
  log : c'.log.toList = c.log.toList ++ [.transition (c.dfa.nameOf i) a (c.dfa.nameOf t)]

/-- Numbers are kept when a set is added. -/
theorem Grown.keeps {settings : Settings} {s : StateSet} {c c' : Construction n}
    (h : Grown settings s c c') {i : Nat} {t : StateSet}
    (ht : c.discovered[i]? = some t) : c'.discovered[i]? = some t := by
  obtain ⟨hi, _⟩ := Array.getElem?_eq_some_iff.mp ht
  rw [h.discovered, Array.getElem?_push, if_neg (by omega), ht]

theorem Grown.newest {settings : Settings} {s : StateSet} {c c' : Construction n}
    (h : Grown settings s c c') :
    c'.discovered[c.discovered.size]? = some s := by
  rw [h.discovered, Array.getElem?_push_size]

theorem Grown.size_pos {settings : Settings} {s : StateSet} {c c' : Construction n}
    (h : Grown settings s c c') : 0 < c'.dfa.size := by
  rw [← Diagram.length_states, h.states, List.length_append]
  simp

def Room (settings : Settings) (c : Construction n) : Prop :=
  ∀ max, settings.maxStates = some max → c.discovered.size < max.toNat

theorem Grown.within {settings : Settings} {s : StateSet} {c c' : Construction n}
    (h : Grown settings s c c') (room : Room settings c) :
    ∀ max, settings.maxStates = some max → c'.discovered.size ≤ max.toNat := by
  intro max hm
  rw [h.discovered, Array.size_push]
  exact room max hm

/-- Either one more set may be discovered or a limit has been met. -/
theorem room_or_full (settings : Settings) (c : Construction n) :
    Room settings c ∨ ∃ max, settings.maxStates = some max ∧ max.toNat ≤ c.discovered.size := by
  cases hm : settings.maxStates with
  | none =>
    left
    intro max h
    rw [hm] at h
    cases h
  | some max =>
    by_cases hle : max.toNat ≤ c.discovered.size
    · exact .inr ⟨max, rfl, hle⟩
    · left
      intro other h
      have he := Option.some.inj (hm.symm.trans h)
      rw [← he]
      exact Nat.lt_of_not_le hle

theorem attempt_eq_ok {β : Type} {c : Construction n} {x : Except Fault β} {y : β} :
    c.attempt x = .ok y ↔ x = .ok y := by
  cases x with
  | ok x => exact ⟨fun h => congrArg Except.ok (Except.ok.inj h), fun h => by rw [h]; rfl⟩
  | error f => exact ⟨nofun, nofun⟩

/-- At the limit a new set is refused, with a warning as the only trace. -/
theorem discover_full {settings : Settings} {c : Construction n} {s : StateSet}
    {fresh : s ∉ c.discovered} {bounded : ∀ i ∈ s, i < n.size} {max : UInt64}
    (hm : settings.maxStates = some max) (hfull : max.toNat ≤ c.discovered.size) :
    c.discover settings s fresh bounded =
      .error ⟨c.log.push (.limitReached max.toNat),
        .refused (.limitExceeded (c.discovered.size + 1) max.toNat)⟩ := by
  have hlimit : (settings.maxStates.map UInt64.toNat).filter (· ≤ c.discovered.size) =
      some max.toNat := by
    simp [hm, Option.filter, hfull]
  unfold discover
  rw [hlimit]

theorem reportProgress_log (c : Construction n) (interval : Nat) :
    (c.reportProgress interval).log.toList = c.log.toList ++
      if 0 < interval ∧ c.discovered.size % interval = 0 then
        [.progress c.discovered.size c.pending.length]
      else [] := by
  unfold reportProgress
  split
  · simp [report]
  · simp

/-- A set whose name is not taken gets the next number while there is room. -/
theorem discover_room {settings : Settings} {c : Construction n} {s : StateSet}
    (fresh : s ∉ c.discovered) (bounded : ∀ i ∈ s, i < n.size) (room : Room settings c)
    (hname : (n.stateFor s).name ∉ c.dfa.states.map State.name) :
    ∃ c', c.discover settings s fresh bounded = .ok (c', c.dfa.size) ∧
      Grown settings s c c' := by
  have hlimit : (settings.maxStates.map UInt64.toNat).filter (· ≤ c.discovered.size) = none := by
    cases hm : settings.maxStates with
    | none => rfl
    | some max =>
      have := room max hm
      simp [Option.filter, this]
  obtain ⟨dfa, hpush, hstates, hedges, hstart, halphabet⟩ := DFA.pushState_eq hname
  let e : Event α := .discovered (n.stateFor s).name (n.stateFor s).accepting
  let recorded := c.record dfa e s fresh bounded
  have hsame := recorded.reportProgress_same settings.progressInterval.toNat
  refine ⟨recorded.reportProgress settings.progressInterval.toNat, ?_, ?_⟩
  · unfold discover
    rw [hlimit]
    have hsetName := congrArg c.attempt (Diagram.setName_eq bounded)
    have hanyFinal := congrArg c.attempt (Diagram.anyFinal_eq bounded)
    exact bind_eq_ok.mpr ⟨_, hsetName, bind_eq_ok.mpr ⟨_, hanyFinal,
      bind_eq_ok.mpr ⟨_, congrArg (c.report e).attempt hpush, rfl⟩⟩⟩
  · constructor
    · rw [hsame.dfa]
      exact hstates
    · rw [hsame.dfa]
      exact hedges
    · rw [hsame.dfa]
      exact hstart
    · rw [hsame.dfa]
      exact halphabet
    · exact hsame.discovered
    · exact hsame.pending
    · rw [reportProgress_log]
      simp [recorded, record, discovery, e]

/-- What a discovery comes to, whatever the settings are, if the limit allows it. -/
theorem discover_eq_ok {settings : Settings} {c c' : Construction n} {s : StateSet}
    {fresh : s ∉ c.discovered} {bounded : ∀ i ∈ s, i < n.size} {i : Nat}
    (h : c.discover settings s fresh bounded = .ok (c', i)) :
    ∃ name accepting dfa e, n.setName s = .ok name ∧ n.anyFinal s = .ok accepting ∧
      c.dfa.pushState ⟨name, accepting⟩ = .ok (dfa, i) ∧
      SameWork c' (c.record dfa e s fresh bounded) := by
  unfold discover at h
  split at h
  · cases h
  · obtain ⟨name, hname, h⟩ := bind_eq_ok.mp h
    obtain ⟨accepting, haccepting, h⟩ := bind_eq_ok.mp h
    obtain ⟨⟨dfa, j⟩, hpush, h⟩ := bind_eq_ok.mp h
    cases h
    exact ⟨name, accepting, dfa, _, attempt_eq_ok.mp hname, attempt_eq_ok.mp haccepting,
      attempt_eq_ok.mp hpush, reportProgress_same _ _⟩

/-- The number of a discovered set is the place where it was put. -/
theorem findIdx?_discovered {c : Construction n} {s : StateSet} {i : Nat}
    (h : c.discovered[i]? = some s) : c.discovered.findIdx? (· = s) = some i := by
  obtain ⟨hi, hs⟩ := Array.getElem?_eq_some_iff.mp h
  apply Array.findIdx?_eq_some_iff_getElem.mpr
  refine ⟨hi, by simpa using hs, ?_⟩
  intro j hj
  have hne : c.discovered[j] ≠ s := by
    intro he
    have heq : c.discovered.toList[j]? = c.discovered.toList[i]? := by
      rw [Array.getElem?_toList, Array.getElem?_toList, h, Array.getElem?_eq_getElem (by omega), he]
    have hlen : j < c.discovered.toList.length := by
      rw [Array.length_toList]
      omega
    have := (List.getElem?_inj hlen c.distinct).mp heq
    omega
  simpa using hne

/-- A set has one number. -/
theorem number_inj {c : Construction n} {i j : Nat} {s : StateSet} (hi : c.discovered[i]? = some s)
    (hj : c.discovered[j]? = some s) : i = j :=
  Option.some.inj ((findIdx?_discovered hi).symm.trans (findIdx?_discovered hj))

/-- A set that was discovered keeps its number. -/
theorem number_known {settings : Settings} {c : Construction n} {s : StateSet}
    {bounded : ∀ i ∈ s, i < n.size} {i : Nat} (h : c.discovered[i]? = some s) :
    c.number settings s bounded = .ok (c, i) := by
  have hfound := findIdx?_discovered h
  unfold number
  split
  · rename_i j hj
    rw [hfound] at hj
    rw [Option.some.inj hj]
  · rename_i hnone
    rw [hfound] at hnone
    cases hnone

theorem number_new {settings : Settings} {c : Construction n} {s : StateSet}
    {bounded : ∀ i ∈ s, i < n.size} (fresh : s ∉ c.discovered) :
    c.number settings s bounded = c.discover settings s fresh bounded := by
  unfold number
  split
  · rename_i i hi
    obtain ⟨hlt, hs, _⟩ := Array.findIdx?_eq_some_iff_getElem.mp hi
    have he : c.discovered[i] = s := by simpa using hs
    exact absurd (he ▸ Array.getElem_mem hlt) fresh
  · rfl

/-- What a construction becomes when a set is to have a number: it stays as it is if the set has
one, and grows by the set otherwise. -/
inductive Numbered (settings : Settings) (s : StateSet) (c : Construction n) :
    Construction n → Nat → Prop
  | known {t : Nat} : c.discovered[t]? = some s → Numbered settings s c c t
  | new {c' : Construction n} : s ∉ c.discovered → Room settings c → Grown settings s c c' →
      Numbered settings s c c' c.discovered.size

theorem Numbered.keeps {settings : Settings} {s : StateSet} {c c' : Construction n} {t : Nat}
    (h : Numbered settings s c c' t) {i : Nat} {r : StateSet} (hr : c.discovered[i]? = some r) :
    c'.discovered[i]? = some r := by
  cases h with
  | known => exact hr
  | new _ _ hg => exact hg.keeps hr

theorem Numbered.target {settings : Settings} {s : StateSet} {c c' : Construction n} {t : Nat}
    (h : Numbered settings s c c' t) : c'.discovered[t]? = some s := by
  cases h with
  | known ht => exact ht
  | new _ _ hg => exact hg.newest

/-- The sets that were discovered first stay the first ones. -/
theorem Numbered.take {settings : Settings} {s : StateSet} {c c' : Construction n} {t k : Nat}
    (h : Numbered settings s c c' t) (hk : k ≤ c.discovered.size) :
    c'.discovered.toList.take k = c.discovered.toList.take k := by
  cases h with
  | known => rfl
  | new _ _ hg =>
    rw [hg.discovered, Array.toList_push, List.take_append_of_le_length (by simpa using hk)]

variable [DecidableEq α]

/-- Two states are joined when the first has no edge for the letter yet. -/
theorem link_eq {c : Construction n} {i t : Nat} {a : α} (hi : i < c.dfa.size)
    (ht : t < c.dfa.size) (fresh : (i, a) ∉ c.dfa.edges.toList.map Edge.key)
    (ha : a ∈ c.dfa.alphabet) : ∃ c', c.link i a t = .ok c' ∧ Linked i a t c c' := by
  obtain ⟨p, hp⟩ := Diagram.state?_of_lt hi
  obtain ⟨q, hq⟩ := Diagram.state?_of_lt ht
  obtain ⟨dfa, hadd, hedges, hstates, hstart, halphabet⟩ := DFA.addEdge_fresh hi ht fresh ha
  refine ⟨{ c.report (.transition p.name a q.name) with dfa }, ?_, ?_⟩
  · have hsource : c.attempt (c.dfa.stateAt i) = .ok p := congrArg c.attempt (Diagram.stateAt_eq hp)
    have htarget : c.attempt (c.dfa.stateAt t) = .ok q := congrArg c.attempt (Diagram.stateAt_eq hq)
    exact bind_eq_ok.mpr ⟨p, hsource, bind_eq_ok.mpr ⟨q, htarget,
      bind_eq_ok.mpr ⟨_, congrArg (attempt _) hadd, rfl⟩⟩⟩
  · refine ⟨hstates, hedges, hstart, halphabet, rfl, rfl, ?_⟩
    rw [Diagram.nameOf_eq hp, Diagram.nameOf_eq hq]
    exact Array.toList_push

end Automata.Construction
