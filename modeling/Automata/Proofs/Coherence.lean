import Automata.Proofs.Construction
import Automata.Proofs.Path

namespace Automata

variable {α : Type}

/-- A set in which the automaton can be after reading a word over its alphabet. -/
def NFA.Arises [DecidableEq α] (n : NFA α) (s : StateSet) : Prop :=
  ∃ i word, n.start = some i ∧ (∀ a ∈ word, a ∈ n.alphabet) ∧ s = n.run (n.closure [i]) word

theorem NFA.Arises.first [DecidableEq α] {n : NFA α} {i : Nat} (hi : n.start = some i) :
    n.Arises (n.closure [i]) :=
  ⟨i, [], hi, by simp, rfl⟩

theorem NFA.Arises.follow [DecidableEq α] {n : NFA α} {s : StateSet} {a : α} (h : n.Arises s)
    (ha : a ∈ n.alphabet) : n.Arises (n.follow s a) := by
  obtain ⟨i, word, hi, hword, rfl⟩ := h
  refine ⟨i, word ++ [a], hi, ?_, ?_⟩
  · intro b hb
    rcases List.mem_append.mp hb with hb | hb
    · exact hword b hb
    · exact List.mem_singleton.mp hb ▸ ha
  · rw [NFA.run_append]
    rfl

namespace Construction

/-- What the first sets' edges are known by: set by set, and letter by letter for each. -/
def layout (letters : List α) (count : Nat) : List (Nat × α) :=
  (List.range count).flatMap fun i => letters.map (i, ·)

theorem layout_succ (letters : List α) (count : Nat) :
    layout letters (count + 1) = layout letters count ++ letters.map (count, ·) := by
  simp [layout, List.range_succ, List.flatMap_append]

theorem mem_layout {letters : List α} {count i : Nat} {a : α} :
    (i, a) ∈ layout letters count ↔ i < count ∧ a ∈ letters := by
  simp [layout, List.mem_flatMap]

/-- The key of the next edge is not among those of the edges before it. -/
theorem next_key_fresh {alphabet before letters : List α} {a : α} {source : Nat}
    (hnodup : alphabet.Nodup) (h : alphabet = before ++ a :: letters) :
    (source, a) ∉ layout alphabet source ++ before.map (source, ·) := by
  intro hm
  rcases List.mem_append.mp hm with hm | hm
  · exact Nat.lt_irrefl _ (mem_layout.mp hm).1
  · obtain ⟨b, hb, he⟩ := List.mem_map.mp hm
    obtain rfl : b = a := congrArg Prod.snd he
    rw [h] at hnodup
    exact (List.nodup_append.mp hnodup).2.2 b hb b List.mem_cons_self rfl

@[simp] theorem length_layout (letters : List α) (count : Nat) :
    (layout letters count).length = count * letters.length := by
  simp [layout]

/-- The place of an edge tells its state and its letter. -/
theorem layout_getElem? {letters : List α} {count k : Nat} (hk : k < count * letters.length) :
    (layout letters count)[k]? = letters[k % letters.length]?.map (k / letters.length, ·) := by
  induction count with
  | zero => simp at hk
  | succ count ih =>
    rw [layout_succ, List.getElem?_append, length_layout]
    split
    · rename_i hlt
      exact ih hlt
    · rename_i hge
      obtain ⟨r, rfl⟩ := Nat.exists_eq_add_of_le (Nat.le_of_not_lt hge)
      have hr : r < letters.length := by
        rw [Nat.succ_mul] at hk
        exact Nat.lt_of_add_lt_add_left hk
      have hdiv : (count * letters.length + r) / letters.length = count := by
        rw [Nat.mul_comm, Nat.mul_add_div (Nat.zero_lt_of_lt hr), Nat.div_eq_of_lt hr, Nat.add_zero]
      have hmod : (count * letters.length + r) % letters.length = r := by
        rw [Nat.mul_comm, Nat.mul_add_mod, Nat.mod_eq_of_lt hr]
      rw [hdiv, hmod, Nat.add_sub_cancel_left, List.getElem?_map]

theorem mem_keys_of_layout {d : DFA α} {letters : List α} {count i : Nat} {a : α}
    (h : d.edges.toList.map Edge.key = layout letters count) :
    (i, a) ∈ d.edges.toList.map Edge.key ↔ i < count ∧ a ∈ letters := by
  rw [h, mem_layout]

theorem edges_size_of_layout {d : DFA α} {letters : List α} {count : Nat}
    (h : d.edges.toList.map Edge.key = layout letters count) :
    d.edges.size = count * letters.length := by
  have hlength := congrArg List.length h
  rw [List.length_map, Array.length_toList, length_layout] at hlength
  exact hlength

variable {n : NFA α}

/-- Each state but the first was met over an edge from an earlier one, and all states met before
have lower handles. -/
def Mentioned (c : Construction n) : Prop :=
  ∀ t, 0 < t → t < c.discovered.size → ∃ before e after,
    c.dfa.edges.toList = before ++ e :: after ∧ e.target = t ∧ e.source < t ∧
      ∀ f ∈ before, f.target < t

theorem Mentioned.linked {i t : Nat} {a : α} {c c' : Construction n} (h : Mentioned c)
    (hl : Linked i a t c c') :
    Mentioned c' := by
  intro u hu hlt
  rw [hl.discovered] at hlt
  obtain ⟨before, e, after, hedges, htarget, hsource, hbefore⟩ := h u hu hlt
  refine ⟨before, e, after ++ [⟨i, a, t⟩], ?_, htarget, hsource, hbefore⟩
  rw [hl.edges, Array.toList_push, hedges, List.append_assoc, List.cons_append]

variable [DecidableEq α]

/-- The invariant of the parts. So many sets were taken from those that wait, and the edges are
known by `keys`. -/
structure Sound (settings : Settings) (c : Construction n) (taken : Nat)
    (keys : List (Nat × α)) : Prop where
  first : ∃ i, n.start = some i ∧ c.discovered[0]? = some (n.closure [i])
  states : c.dfa.states = c.discovered.toList.map n.stateFor
  start : c.dfa.start = some 0
  alphabet : c.dfa.alphabet = n.alphabet
  waiting : c.pending = c.discovered.toList.drop taken
  taken_le : taken ≤ c.discovered.size
  keys_eq : c.dfa.edges.toList.map Edge.key = keys
  follows : ∀ e ∈ c.dfa.edges, ∃ s, c.discovered[e.source]? = some s ∧
    c.discovered[e.target]? = some (n.follow s e.label)
  within : ∀ max, settings.maxStates = some max → c.discovered.size ≤ max.toNat

/-- The invariant whenever no set is halfway between its discovery and its first edge. -/
structure Coherent (settings : Settings) (c : Construction n) (taken : Nat)
    (keys : List (Nat × α)) : Prop extends Sound settings c taken keys where
  mentioned : Mentioned c

variable {settings : Settings} {c c' : Construction n} {taken : Nat} {keys : List (Nat × α)}

theorem Sound.size (h : Sound settings c taken keys) : c.dfa.size = c.discovered.size := by
  rw [← Diagram.length_states, h.states, List.length_map, Array.length_toList]

theorem Sound.target_lt (h : Sound settings c taken keys) {e : Edge α} (he : e ∈ c.dfa.edges) :
    e.target < c.discovered.size :=
  h.size ▸ (c.dfa.ends_lt e he).2

/-- The name of a new set is not taken. -/
theorem Sound.name_fresh (h : Sound settings c taken keys) {s : StateSet}
    (bounded : ∀ i ∈ s, i < n.size) (fresh : s ∉ c.discovered) :
    (n.stateFor s).name ∉ c.dfa.states.map State.name := by
  rw [h.states, List.map_map]
  intro hm
  obtain ⟨t, ht, hname⟩ := List.mem_map.mp hm
  have ht := Array.mem_toList_iff.mp ht
  have hst := Diagram.stateFor_inj (c.bounded t ht) bounded hname
  exact fresh (hst ▸ ht)

/-- What is discovered arises: the word of a set is that of an earlier set and one letter more. -/
theorem Coherent.arises (h : Coherent settings c taken keys) {t : Nat} {s : StateSet}
    (hs : c.discovered[t]? = some s) : n.Arises s := by
  induction t using Nat.strongRecOn generalizing s with
  | ind t ih =>
    by_cases ht : t = 0
    · subst ht
      obtain ⟨i, hi, hfirst⟩ := h.first
      obtain rfl := Option.some.inj (hs.symm.trans hfirst)
      exact .first hi
    · obtain ⟨hlt, _⟩ := Array.getElem?_eq_some_iff.mp hs
      obtain ⟨before, e, after, hedges, rfl, hsource, _⟩ :=
        h.mentioned t (Nat.pos_of_ne_zero ht) hlt
      have he : e ∈ c.dfa.edges := Array.mem_toList_iff.mp (by simp [hedges])
      obtain ⟨r, hr, htarget⟩ := h.follows e he
      obtain rfl := Option.some.inj (hs.symm.trans htarget)
      exact (ih e.source hsource hr).follow (h.alphabet ▸ c.dfa.label_mem e he)

theorem Coherent.arises_of_mem (h : Coherent settings c taken keys) :
    ∀ s ∈ c.discovered, n.Arises s := by
  intro s hs
  obtain ⟨t, ht⟩ := Array.mem_iff_getElem?.mp hs
  exact h.arises ht

theorem not_mem_begin (s : StateSet) : s ∉ (begin n).discovered :=
  Array.not_mem_empty s

theorem Grown.arises {s : StateSet} (h : Grown settings s c c') (hs : n.Arises s)
    (arises : ∀ t ∈ c.discovered, n.Arises t) : ∀ t ∈ c'.discovered, n.Arises t := by
  intro t ht
  rw [h.discovered] at ht
  rcases Array.mem_push.mp ht with ht | rfl
  · exact arises t ht
  · exact hs

/-- A construction stays sound as it grows by a set. -/
theorem Sound.grown {s : StateSet} (h : Sound settings c taken keys) (hg : Grown settings s c c')
    (room : Room settings c) : Sound settings c' taken keys where
  first := by
    obtain ⟨i, hi, hfirst⟩ := h.first
    exact ⟨i, hi, hg.keeps hfirst⟩
  states := by
    rw [hg.states, h.states, hg.discovered, Array.toList_push, List.map_append]
    rfl
  start := hg.start.trans h.start
  alphabet := hg.alphabet.trans h.alphabet
  waiting := by
    have hle : taken ≤ c.discovered.toList.length := by simpa using h.taken_le
    rw [hg.pending, h.waiting, hg.discovered, Array.toList_push,
      List.drop_append_of_le_length hle]
  taken_le := by
    rw [hg.discovered, Array.size_push]
    exact Nat.le_succ_of_le h.taken_le
  keys_eq := by rw [hg.edges, h.keys_eq]
  follows e he := by
    rw [hg.edges] at he
    obtain ⟨s, hs, ht⟩ := h.follows e he
    exact ⟨s, hg.keeps hs, hg.keeps ht⟩
  within := hg.within room

/-- An edge to the set that follows keeps the construction sound. -/
theorem Sound.linked {i t : Nat} {a : α} {s : StateSet} (h : Sound settings c taken keys)
    (hi : c.discovered[i]? = some s) (ht : c.discovered[t]? = some (n.follow s a))
    (hl : Linked i a t c c') : Sound settings c' taken (keys ++ [(i, a)]) where
  first := hl.discovered ▸ h.first
  states := by rw [hl.states, hl.discovered, h.states]
  start := hl.start.trans h.start
  alphabet := hl.alphabet.trans h.alphabet
  waiting := by rw [hl.pending, hl.discovered, h.waiting]
  taken_le := hl.discovered ▸ h.taken_le
  keys_eq := by
    rw [hl.edges, Array.toList_push, List.map_append, h.keys_eq]
    rfl
  follows e he := by
    rw [hl.edges] at he
    rw [hl.discovered]
    rcases Array.mem_push.mp he with he | rfl
    · exact h.follows e he
    · exact ⟨s, hi, ht⟩
  within := hl.discovered ▸ h.within

/-- The first edge to a new state is the one for which the state was made. -/
theorem Sound.mentioned_grown {i : Nat} {a : α} {s : StateSet} {c₁ : Construction n}
    (h : Sound settings c taken keys) (hm : Mentioned c) (hi : i < c.discovered.size)
    (hg : Grown settings s c c₁) (hl : Linked i a c.discovered.size c₁ c') : Mentioned c' := by
  intro u hu hlt
  have hedges : c'.dfa.edges.toList = c.dfa.edges.toList ++ [⟨i, a, c.discovered.size⟩] := by
    rw [hl.edges, Array.toList_push, hg.edges]
  rw [hl.discovered, hg.discovered, Array.size_push] at hlt
  by_cases hnew : u = c.discovered.size
  · subst hnew
    refine ⟨_, _, [], hedges, rfl, hi, ?_⟩
    intro f hf
    exact h.target_lt (Array.mem_toList_iff.mp hf)
  · obtain ⟨before, e, after, hold, htarget, hsource, hbefore⟩ := hm u hu (by omega)
    refine ⟨before, e, after ++ [⟨i, a, c.discovered.size⟩], ?_, htarget, hsource, hbefore⟩
    rw [hedges, hold, List.append_assoc, List.cons_append]

theorem Sound.lt_size (h : Sound settings c taken keys) {i : Nat} {s : StateSet}
    (hs : c.discovered[i]? = some s) : i < c.dfa.size := by
  obtain ⟨hi, _⟩ := Array.getElem?_eq_some_iff.mp hs
  exact h.size ▸ hi

theorem Sound.key_fresh (h : Sound settings c taken keys) {i : Nat} {a : α}
    (hfresh : (i, a) ∉ keys) : (i, a) ∉ c.dfa.edges.toList.map Edge.key :=
  h.keys_eq ▸ hfresh

/-- A set gets its number unless it is new and the limit is met. -/
theorem Sound.number (h : Sound settings c taken keys) {s : StateSet}
    (bounded : ∀ i ∈ s, i < n.size) :
    (∃ c' t, c.number settings s bounded = .ok (c', t) ∧ Numbered settings s c c' t) ∨
    ∃ max, settings.maxStates = some max ∧ max.toNat ≤ c.discovered.size ∧ s ∉ c.discovered ∧
      c.number settings s bounded = .error ⟨c.log.push (.limitReached max.toNat),
        .refused (.limitExceeded (c.discovered.size + 1) max.toNat)⟩ := by
  by_cases hknown : s ∈ c.discovered
  · obtain ⟨t, htarget⟩ := Array.mem_iff_getElem?.mp hknown
    exact .inl ⟨c, t, number_known htarget, .known htarget⟩
  · rw [number_new hknown]
    rcases room_or_full settings c with room | ⟨max, hm, hfull⟩
    · obtain ⟨c', hdiscover, hg⟩ :=
        discover_room hknown bounded room (h.name_fresh bounded hknown)
      exact .inl ⟨c', _, hdiscover, h.size ▸ .new hknown room hg⟩
    · exact .inr ⟨max, hm, hfull, hknown, discover_full hm hfull⟩

theorem Sound.number_ok (h : Sound settings c taken keys) {s : StateSet}
    {bounded : ∀ i ∈ s, i < n.size} {t : Nat} (hnumber : c.number settings s bounded = .ok (c', t)) :
    Numbered settings s c c' t := by
  rcases h.number bounded with ⟨c₁, t₁, hok, hn⟩ | ⟨_, _, _, _, herror⟩
  · cases hnumber.symm.trans hok
    exact hn
  · cases hnumber.symm.trans herror

theorem Sound.numbered {s : StateSet} {t : Nat} (h : Sound settings c taken keys)
    (hn : Numbered settings s c c' t) : Sound settings c' taken keys := by
  cases hn with
  | known => exact h
  | new _ room hg => exact h.grown hg room

/-- An edge can be drawn: it is a new one, between states. -/
structure Drawable (c : Construction n) (source : Nat) (a : α) (target : Nat) : Prop where
  source_lt : source < c.dfa.size
  target_lt : target < c.dfa.size
  fresh : (source, a) ∉ c.dfa.edges.toList.map Edge.key
  label_mem : a ∈ c.dfa.alphabet

theorem Drawable.link {source target : Nat} {a : α} (h : Drawable c source a target) :
    ∃ c', c.link source a target = .ok c' ∧ Linked source a target c c' :=
  link_eq h.source_lt h.target_lt h.fresh h.label_mem

/-- The edge to a set can be drawn when the set has its number. -/
theorem Sound.drawable {i t : Nat} {a : α} {s : StateSet} (h : Sound settings c taken keys)
    (hs : c.discovered[i]? = some s) (ha : a ∈ n.alphabet) (hfresh : (i, a) ∉ keys)
    (hn : Numbered settings (n.follow s a) c c' t) : Drawable c' i a t := by
  have hsound := h.numbered hn
  exact ⟨hsound.lt_size (hn.keeps hs), hsound.lt_size hn.target, hsound.key_fresh hfresh,
    hsound.alphabet ▸ ha⟩

/-- The edge to a set is drawn as soon as the set has its number. -/
theorem Coherent.linked {i t : Nat} {a : α} {s : StateSet} {c₁ : Construction n}
    (h : Coherent settings c taken keys) (hs : c.discovered[i]? = some s)
    (hn : Numbered settings (n.follow s a) c c₁ t) (hl : Linked i a t c₁ c') :
    Coherent settings c' taken (keys ++ [(i, a)]) := by
  refine ⟨(h.toSound.numbered hn).linked (hn.keeps hs) hn.target hl, ?_⟩
  cases hn with
  | known => exact h.mentioned.linked hl
  | new _ _ hg => exact h.toSound.mentioned_grown h.mentioned (h.size ▸ h.lt_size hs) hg hl

end Construction

end Automata
