import Automata.Proofs.Coherence

namespace Automata.Construction

variable {α : Type} [DecidableEq α] {n : NFA α}

/-- The limit stops the conversion, and one set more arises than it allows. -/
def Stopped (n : NFA α) (settings : Settings) (halt : Halt α) : Prop :=
  ∃ max, settings.maxStates = some max ∧
    halt.failure = .refused (.limitExceeded (max.toNat + 1) max.toNat) ∧
    ∃ sets : List StateSet, sets.Nodup ∧ sets.length = max.toNat + 1 ∧ ∀ s ∈ sets, n.Arises s

/-- What a part of the conversion comes to: a construction with a property, or the limit. -/
def Ends (settings : Settings) (P : Construction n → Prop) :
    Except (Halt α) (Construction n) → Prop
  | .ok c => P c
  | .error halt => Stopped n settings halt

variable {settings : Settings} {c : Construction n} {taken : Nat} {keys : List (Nat × α)}

theorem Ends.bind {P Q : Construction n → Prop} {r : Except (Halt α) (Construction n)}
    {f : Construction n → Except (Halt α) (Construction n)} (h : Ends settings P r)
    (hf : ∀ c, P c → Ends settings Q (f c)) : Ends settings Q (r >>= f) := by
  cases r with
  | ok c => exact hf c h
  | error halt => exact h

/-- One more set than the limit allows is at hand when the limit is met. -/
theorem stopped_of_full {s : StateSet} {max : UInt64} {log : Array (Event α)}
    (hm : settings.maxStates = some max) (hsize : c.discovered.size = max.toNat)
    (arises : ∀ t ∈ c.discovered, n.Arises t) (fresh : s ∉ c.discovered) (hs : n.Arises s) :
    Stopped n settings
      ⟨log, .refused (.limitExceeded (c.discovered.size + 1) max.toNat)⟩ := by
  refine ⟨max, hm, by rw [hsize], s :: c.discovered.toList, ?_, ?_, ?_⟩
  · exact List.nodup_cons.mpr ⟨fun h => fresh (Array.mem_toList_iff.mp h), c.distinct⟩
  · rw [List.length_cons, Array.length_toList, hsize]
  · intro t ht
    rcases List.mem_cons.mp ht with rfl | ht
    · exact hs
    · exact arises t (Array.mem_toList_iff.mp ht)

/-- To follow a letter ends with its edge in place, or at the limit. -/
theorem Coherent.connect {s : StateSet} {i : Nat} {a : α} (h : Coherent settings c taken keys)
    (hs : c.discovered[i]? = some s) (ha : a ∈ n.alphabet) (hfresh : (i, a) ∉ keys) :
    Ends settings
      (fun c' => Coherent settings c' taken (keys ++ [(i, a)]) ∧ c'.discovered[i]? = some s)
      (connect settings s i c a) := by
  unfold Construction.connect
  rcases h.number (NFA.mem_follow_lt (s := s) (a := a)) with
    ⟨c₁, t, hnumber, hn⟩ | ⟨max, hm, hfull, hfollow, hnumber⟩
  · obtain ⟨c', hlink, hl⟩ := (h.drawable hs ha hfresh hn).link
    rw [hnumber]
    change Ends settings _ (c₁.link i a t)
    rw [hlink]
    exact ⟨h.linked hs hn hl, hl.discovered ▸ hn.keeps hs⟩
  · rw [hnumber]
    exact stopped_of_full hm (Nat.le_antisymm (h.within max hm) hfull) h.arises_of_mem hfollow
      ((h.arises hs).follow ha)

/-- The letters are gone through one by one; each letter's edge is new because letters differ. -/
theorem Coherent.foldlM_connect {s : StateSet} {i : Nat} {letters : List α}
    (h : Coherent settings c taken keys) (hs : c.discovered[i]? = some s)
    (hletters : ∀ a ∈ letters, a ∈ n.alphabet) (hnodup : letters.Nodup)
    (hfresh : ∀ a ∈ letters, (i, a) ∉ keys) :
    Ends settings (fun c' => Coherent settings c' taken (keys ++ letters.map (i, ·)))
      (letters.foldlM (Construction.connect settings s i) c) := by
  induction letters generalizing c keys with
  | nil =>
    rw [List.map_nil, List.append_nil]
    exact h
  | cons a letters ih =>
    obtain ⟨hnot, hrest⟩ := List.nodup_cons.mp hnodup
    rw [List.foldlM_cons]
    apply (h.connect hs (hletters a List.mem_cons_self) (hfresh a List.mem_cons_self)).bind
    intro c₁ hc₁
    have hnext := ih hc₁.1 hc₁.2 (fun b hb => hletters b (List.mem_cons_of_mem a hb)) hrest
      (by
        intro b hb hm
        rcases List.mem_append.mp hm with hm | hm
        · exact hfresh b (List.mem_cons_of_mem a hb) hm
        · have he : b = a := congrArg Prod.snd (List.mem_singleton.mp hm)
          exact hnot (he ▸ hb))
    rw [List.append_assoc] at hnext
    exact hnext

/-- The set that is taken next is the one whose number is the number of those taken before. -/
theorem Coherent.take {s : StateSet} {rest : List StateSet} (h : Coherent settings c taken keys)
    (hp : c.pending = s :: rest) :
    c.discovered[taken]? = some s ∧
      Coherent settings { c with pending := rest } (taken + 1) keys := by
  have hdrop : c.discovered.toList.drop taken = s :: rest := h.waiting.symm.trans hp
  have hs : c.discovered[taken]? = some s := by
    rw [← Array.getElem?_toList, ← Nat.add_zero taken, ← List.getElem?_drop, hdrop]
    rfl
  obtain ⟨hlt, _⟩ := Array.getElem?_eq_some_iff.mp hs
  refine ⟨hs, ⟨h.first, h.states, h.start, h.alphabet, ?_, hlt, h.keys_eq, h.follows, h.within⟩,
    h.mentioned⟩
  change rest = c.discovered.toList.drop (taken + 1)
  rw [← List.tail_drop, hdrop]
  rfl

/-- The set that is taken next gets all of its edges. -/
theorem Coherent.expand {s : StateSet} {rest : List StateSet}
    (h : Coherent settings c taken (layout n.alphabet taken)) (hp : c.pending = s :: rest) :
    Ends settings
      (fun c' => Coherent settings c' (taken + 1) (layout n.alphabet (taken + 1)))
      ({ c with pending := rest }.expand settings s) := by
  obtain ⟨hs, hnext⟩ := h.take hp
  have hfound := findIdx?_discovered (c := { c with pending := rest }) hs
  unfold Construction.expand
  split
  · rename_i hnone
    rw [hfound] at hnone
    cases hnone
  · rename_i i hi
    rw [hfound] at hi
    obtain rfl := Option.some.inj hi
    rw [layout_succ]
    apply hnext.foldlM_connect hs (fun _ ha => ha) n.alphabet_nodup
    intro a _ hm
    have := (mem_layout.mp hm).1
    omega

/-- The invariant at the end: every set was taken and has its edges. -/
def Finished (settings : Settings) (c : Construction n) : Prop :=
  Coherent settings c c.discovered.size (layout n.alphabet c.discovered.size)

theorem Coherent.finished (h : Coherent settings c taken (layout n.alphabet taken))
    (hp : c.pending = []) : Finished settings c := by
  have hdrop : c.discovered.toList.drop taken = [] := h.waiting.symm.trans hp
  have hle : c.discovered.size ≤ taken := by simpa using hdrop
  have heq : taken = c.discovered.size := Nat.le_antisymm h.taken_le hle
  subst heq
  exact h

/-- The loop goes on until every set has its edges. -/
theorem Coherent.explore (h : Coherent settings c taken (layout n.alphabet taken)) :
    Ends settings (Finished settings) (Construction.explore settings c) := by
  fun_induction Construction.explore settings c generalizing taken with
  | case1 c hp => exact h.finished hp
  | case2 c s rest hp halt he =>
    have := h.expand hp
    rw [he] at this
    exact this
  | case3 c s rest hp c' he ih =>
    have := h.expand hp
    rw [he] at this
    exact ih this

/-- An edge known by its state and letter leads to the set that follows. -/
theorem Sound.target_of_key (h : Sound settings c taken keys) {i : Nat} {a : α} {s : StateSet}
    (hk : (i, a) ∈ keys) (hs : c.discovered[i]? = some s) :
    ∃ t, c.dfa.target? i a = some t ∧ c.discovered[t]? = some (n.follow s a) := by
  rw [← h.keys_eq] at hk
  obtain ⟨e, he, hkey⟩ := List.mem_map.mp hk
  obtain ⟨rfl, rfl⟩ := DFA.key_eq_iff.mp hkey
  have he := Array.mem_toList_iff.mp he
  obtain ⟨r, hr, ht⟩ := h.follows e he
  obtain rfl := Option.some.inj (hs.symm.trans hr)
  exact ⟨e.target, DFA.target?_eq_some_iff.mpr he, ht⟩

theorem Finished.target (h : Finished settings c) {i : Nat} {a : α} {s : StateSet}
    (hs : c.discovered[i]? = some s) (ha : a ∈ n.alphabet) :
    ∃ t, c.dfa.target? i a = some t ∧ c.discovered[t]? = some (n.follow s a) := by
  obtain ⟨hi, _⟩ := Array.getElem?_eq_some_iff.mp hs
  exact h.toSound.target_of_key (mem_layout.mpr ⟨hi, ha⟩) hs

theorem Finished.gap?_eq_none (h : Finished settings c) : c.dfa.gap? = none := by
  apply DFA.gap?_eq_none_iff.mpr
  intro i hi a ha
  have hlt : i < c.discovered.size := h.size ▸ hi
  have hs : c.discovered[i]? = some c.discovered[i] := Array.getElem?_eq_getElem hlt
  obtain ⟨t, ht, _⟩ := h.target hs (h.alphabet ▸ ha)
  exact ⟨t, ht⟩

theorem Finished.finish (h : Finished settings c) :
    Ends settings (Finished settings) c.finish := by
  unfold Construction.finish DFA.requireComplete
  rw [h.gap?_eq_none]
  exact ⟨⟨h.first, h.states, h.start, h.alphabet, h.waiting, h.taken_le, h.keys_eq, h.follows,
    h.within⟩, h.mentioned⟩

/-- No state is there at first whose name could be taken. -/
theorem begin_names (n : NFA α) : (begin n).dfa.states.map State.name = [] := by
  simp [begin, DFA.withAlphabet, Diagram.empty, Diagram.states, Roster.empty]

/-- The first set is discovered if the limit allows any. -/
theorem discover_begin {s : StateSet} (fresh : s ∉ (begin n).discovered)
    (bounded : ∀ i ∈ s, i < n.size) (room : Room settings (begin n)) :
    ∃ c, (begin n).discover settings s fresh bounded = .ok (c, 0) ∧ Grown settings s (begin n) c :=
  discover_room fresh bounded room (by simp [begin_names])

/-- The state of the first set becomes the start. -/
theorem Grown.setStart {i : Nat} (hi : n.start = some i) (room : Room settings (begin n))
    (hg : Grown settings (n.closure [i]) (begin n) c) :
    ∃ dfa, c.dfa.setStart 0 = .ok dfa ∧
      Coherent settings { c with dfa } 0 (layout n.alphabet 0) := by
  obtain ⟨dfa, hset, hstates, hedges, hstart, halphabet⟩ := DFA.setStart_eq hg.size_pos
  have hdiscovered : c.discovered = #[n.closure [i]] := hg.discovered
  have hnone : dfa.edges = #[] := hedges.trans hg.edges
  refine ⟨dfa, hset, ⟨⟨i, hi, ?_⟩, ?_, hstart, ?_, ?_, Nat.zero_le _, ?_, ?_, ?_⟩, ?_⟩
  · change c.discovered[0]? = _
    rw [hdiscovered]
    rfl
  · change dfa.states = c.discovered.toList.map n.stateFor
    rw [hstates, hg.states, hdiscovered]
    rfl
  · change dfa.alphabet = n.alphabet
    rw [halphabet, hg.alphabet]
    exact eraseDups_of_nodup n.alphabet_nodup
  · change c.pending = c.discovered.toList
    rw [hg.pending, hdiscovered]
    rfl
  · change dfa.edges.toList.map Edge.key = []
    rw [hnone]
    rfl
  · intro e he
    change e ∈ dfa.edges at he
    rw [hnone] at he
    cases Array.not_mem_empty e he
  · exact hg.within room
  · intro t ht hlt
    change t < c.discovered.size at hlt
    rw [hdiscovered] at hlt
    exact absurd hlt (Nat.not_lt.mpr ht)

/-- The first set is discovered unless the limit is zero. -/
theorem launch_ends (settings : Settings) {i : Nat} (hi : n.start = some i) :
    Ends settings (fun c => Coherent settings c 0 (layout n.alphabet 0))
      (launch settings hi) := by
  have fresh : n.closure [i] ∉ (begin n).discovered := not_mem_begin _
  unfold launch
  rcases room_or_full settings (begin n) with room | ⟨max, hm, hfull⟩
  · obtain ⟨c, hdiscover, hg⟩ := discover_begin fresh (NFA.mem_closure_start_lt hi) room
    obtain ⟨dfa, hset, hcoherent⟩ := hg.setStart hi room
    rw [hdiscover]
    change Ends settings _ (do
      let dfa ← c.attempt (c.dfa.setStart 0)
      return { c with dfa })
    rw [hset]
    exact hcoherent
  · rw [discover_full hm hfull]
    have hzero : (begin n).discovered.size = 0 := rfl
    exact stopped_of_full hm (by omega) (by simp [begin]) fresh (.first hi)

/-- From a start state on, a conversion finishes unless the limit stops it. -/
theorem run_ends (settings : Settings) (hstart : n.start ≠ none) :
    Ends settings (Finished settings) (run n settings) := by
  unfold run
  split
  · rename_i hnone
    exact absurd hnone hstart
  · rename_i i hi
    apply (launch_ends settings hi).bind
    intro c hc
    apply hc.explore.bind
    intro c hc
    exact hc.finish

theorem run_missingStart (settings : Settings) (hnone : n.start = none) :
    run n settings = .error ⟨(begin n).log, .refused .missingStart⟩ := by
  unfold run
  split
  · rfl
  · rename_i i hi
    rw [hnone] at hi
    cases hi

end Automata.Construction
