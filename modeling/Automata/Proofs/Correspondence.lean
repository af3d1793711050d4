import Automata.Proofs.BreadthFirst

namespace Automata

variable {α β : Type}

namespace Word

theorem mem_map_of_mem {g : α → β} {alphabet word : List α} (h : ∀ a ∈ word, a ∈ alphabet) :
    ∀ b ∈ word.map g, b ∈ alphabet.map g := by
  intro b hb
  obtain ⟨a, ha, rfl⟩ := List.mem_map.mp hb
  exact List.mem_map_of_mem (h a ha)

/-- A word over renamed letters is a renamed word. -/
theorem exists_of_mem_map {g : α → β} {alphabet : List α} {word : List β}
    (h : ∀ b ∈ word, b ∈ alphabet.map g) :
    ∃ v : List α, (∀ a ∈ v, a ∈ alphabet) ∧ v.map g = word := by
  induction word with
  | nil => exact ⟨[], by simp, rfl⟩
  | cons b word ih =>
    obtain ⟨v, hv, rfl⟩ := ih fun c hc => h c (List.mem_cons_of_mem b hc)
    obtain ⟨a, ha, rfl⟩ := List.mem_map.mp (h b List.mem_cons_self)
    exact ⟨a :: v, List.forall_mem_cons.mpr ⟨ha, hv⟩, rfl⟩

variable [DecidableEq α] [DecidableEq β]

theorem idxOf_map {g : α → β} (hg : Function.Injective g) (letters : List α) (a : α) :
    (letters.map g).idxOf (g a) = letters.idxOf a := by
  induction letters with
  | nil => rfl
  | cons b letters ih =>
    have hbeq : (g b == g a) = (b == a) := by simp [beq_eq_beq, hg.eq_iff]
    rw [List.map_cons, List.idxOf_cons, List.idxOf_cons, hbeq, ih]

theorem precedes_map {g : α → β} (hg : Function.Injective g) {alphabet v w : List α} :
    Precedes (alphabet.map g) (v.map g) (w.map g) ↔ Precedes alphabet v w := by
  have hplaces : ∀ word, places (alphabet.map g) (word.map g) = places alphabet word := by
    intro word
    simp only [places, List.map_map, Function.comp_def, idxOf_map hg]
  rw [Precedes, Precedes, hplaces, hplaces]

end Word

variable [DecidableEq α] [DecidableEq β]

namespace DFA

/-- Two words lead to one state of the first automaton exactly when they do so in the second. -/
structure Corresponds (g : α → β) (d : DFA α) (e : DFA β) : Prop where
  left : d.BreadthFirst
  right : e.BreadthFirst
  injective : Function.Injective g
  alphabet : e.alphabet = d.alphabet.map g
  run_eq_iff : ∀ v w, (∀ a ∈ v, a ∈ d.alphabet) → (∀ a ∈ w, a ∈ d.alphabet) →
    (e.run 0 (v.map g) = e.run 0 (w.map g) ↔ d.run 0 v = d.run 0 w)

namespace Corresponds

variable {g : α → β} {d : DFA α} {e : DFA β} (h : Corresponds g d e)
include h

/-- Least words are carried along by the letters' correspondence. -/
theorem leastWord {word : List α} {t x : Nat} (hword : d.LeastWord t word)
    (hx : e.run 0 (word.map g) = some x) : e.LeastWord x (word.map g) := by
  refine ⟨h.right.leadsTo_iff.mpr hx, ?_⟩
  intro other hother
  obtain ⟨v, hv, rfl⟩ := Word.exists_of_mem_map (h.alphabet ▸ hother.1)
  have hsame := hx.trans (h.right.leadsTo_iff.mp hother).symm
  have hrun := (h.run_eq_iff word v hword.1.1 hv).mp hsame
  have hleads := h.left.leadsTo_iff.mpr (hrun.symm.trans (h.left.leadsTo_iff.mp hword.1))
  rw [h.alphabet, Word.precedes_map h.injective]
  exact (hword.2 v hleads).imp_left fun he => congrArg (List.map g) he

/-- The second automaton numbers its states in the order of the first. -/
theorem lt_of_lt {v w : List α} {t u x y : Nat} (ht : d.run 0 v = some t)
    (hu : d.run 0 w = some u) (hx : e.run 0 (v.map g) = some x)
    (hy : e.run 0 (w.map g) = some y) (htu : t < u) : x < y := by
  obtain ⟨first, hfirst⟩ := h.left.exists_leastWord (h.left.run_lt ht)
  obtain ⟨second, hsecond⟩ := h.left.exists_leastWord (h.left.run_lt hu)
  have hv := mem_alphabet_of_run ht
  have hw := mem_alphabet_of_run hu
  have hx' : e.run 0 (first.map g) = some x := by
    rw [← hx, h.run_eq_iff first v hfirst.1.1 hv, ht]
    exact h.left.leadsTo_iff.mp hfirst.1
  have hy' : e.run 0 (second.map g) = some y := by
    rw [← hy, h.run_eq_iff second w hsecond.1.1 hw, hu]
    exact h.left.leadsTo_iff.mp hsecond.1
  have hprecedes := h.left.leastWord_precedes hfirst hsecond htu
  rw [← Word.precedes_map h.injective, ← h.alphabet] at hprecedes
  rcases Nat.lt_trichotomy x y with hlt | rfl | hgt
  · exact hlt
  · have := (h.run_eq_iff v w hv hw).mp (hx.trans hy.symm)
    have := Option.some.inj (ht.symm.trans (this.trans hu))
    omega
  · have hback := h.right.leastWord_precedes (h.leastWord hsecond hy') (h.leastWord hfirst hx') hgt
    exact absurd hback hprecedes.asymm

/-- Words lead to the same handles. By induction on the handle: the handles below have their
words already, so the next one in one automaton is the next one in the other. -/
theorem run_map {word : List α} (hword : ∀ a ∈ word, a ∈ d.alphabet) :
    e.run 0 (word.map g) = d.run 0 word := by
  obtain ⟨t, ht⟩ := h.left.exists_run hword
  obtain ⟨x, hx⟩ := h.right.exists_run (h.alphabet ▸ Word.mem_map_of_mem hword)
  suffices x = t by rw [hx, ht, this]
  induction t using Nat.strongRecOn generalizing word x with
  | ind t ih =>
    rcases Nat.lt_trichotomy x t with hlt | heq | hgt
    -- By induction a word that leads to `x` in the first automaton does so in the second.
    · obtain ⟨v, hv⟩ := h.left.exists_leastWord (Nat.lt_trans hlt (h.left.run_lt ht))
      have hrun := h.left.leadsTo_iff.mp hv.1
      obtain ⟨y, hy⟩ := h.right.exists_run (h.alphabet ▸ Word.mem_map_of_mem hv.1.1)
      obtain rfl := ih x hlt hv.1.1 hrun y hy
      exact absurd (h.lt_of_lt hrun ht hy hx hlt) (Nat.lt_irrefl _)
    · exact heq
    -- A word that leads to `t` in the second automaton would have no handle in the first.
    · obtain ⟨w, hw⟩ := h.right.exists_leastWord (Nat.lt_trans hgt (h.right.run_lt hx))
      have hrun := h.right.leadsTo_iff.mp hw.1
      obtain ⟨v, hv, rfl⟩ := Word.exists_of_mem_map (h.alphabet ▸ hw.1.1)
      obtain ⟨s, hs⟩ := h.left.exists_run hv
      rcases Nat.lt_trichotomy s t with hst | rfl | hst
      · have := ih s hst hv hs t hrun
        omega
      · have := (h.run_eq_iff v word hv hword).mpr (hs.trans ht.symm)
        exact Option.some.inj (hx.symm.trans (this.symm.trans hrun))
      · exact absurd (h.lt_of_lt ht hs hx hrun hst) (Nat.lt_asymm hgt)

/-- Both automata have one state for each least word. -/
theorem size_eq : e.size = d.size := by
  apply Nat.le_antisymm
  · apply Nat.le_of_not_lt
    intro hlt
    obtain ⟨w, hw⟩ := h.right.exists_leastWord hlt
    obtain ⟨v, hv, rfl⟩ := Word.exists_of_mem_map (h.alphabet ▸ hw.1.1)
    have hrun := h.right.leadsTo_iff.mp hw.1
    rw [h.run_map hv] at hrun
    exact Nat.lt_irrefl _ (h.left.run_lt hrun)
  · apply Nat.le_of_not_lt
    intro hlt
    obtain ⟨v, hv⟩ := h.left.exists_leastWord hlt
    have hrun := h.left.leadsTo_iff.mp hv.1
    rw [← h.run_map hv.1.1] at hrun
    exact Nat.lt_irrefl _ (h.right.run_lt hrun)

/-- The edges correspond as well, so that the two differ by their letters alone. -/
theorem target?_map {i : Nat} {a : α} (hi : i < d.size) (ha : a ∈ d.alphabet) :
    e.target? i (g a) = d.target? i a := by
  obtain ⟨word, hword⟩ := h.left.exists_leastWord hi
  have hrun := h.left.leadsTo_iff.mp hword.1
  have hconcat : ∀ b ∈ word ++ [a], b ∈ d.alphabet := by
    intro b hb
    rcases List.mem_append.mp hb with hb | hb
    · exact hword.1.1 b hb
    · exact List.mem_singleton.mp hb ▸ ha
  have hnext := h.run_map hconcat
  rw [List.map_append, List.map_singleton, run_concat, run_concat, h.run_map hword.1.1, hrun] at hnext
  exact hnext

/-- The edges are the same in the same order, with their letters renamed. -/
theorem edges_eq :
    e.edges.toList = d.edges.toList.map fun f => ⟨f.source, g f.label, f.target⟩ := by
  have hkeys : e.edges.toList.map Edge.key =
      (d.edges.toList.map Edge.key).map fun p => (p.1, g p.2) := by
    rw [h.right.keys_eq, h.left.keys_eq, h.size_eq, h.alphabet]
    simp [Construction.layout, List.map_flatMap, Function.comp_def]
  apply List.ext_getElem?
  intro k
  have hkey := congrArg (·[k]?) hkeys
  simp only [List.getElem?_map] at hkey ⊢
  cases hd : d.edges.toList[k]? with
  | none =>
    rw [hd] at hkey
    simpa using hkey
  | some f =>
    rw [hd] at hkey
    obtain ⟨f', he, hkey⟩ := Option.map_eq_some_iff.mp hkey
    obtain ⟨hsource, hlabel⟩ : f'.source = f.source ∧ f'.label = g f.label := key_eq_iff.mp hkey
    have hf := Array.mem_toList_iff.mp (List.mem_of_getElem? hd)
    have hf' := Array.mem_toList_iff.mp (List.mem_of_getElem? he)
    have htarget : some f'.target = some f.target := by
      rw [← target?_eq_some_iff.mpr hf, ← target?_eq_some_iff.mpr hf', hsource, hlabel]
      exact h.target?_map (d.ends_lt f hf).1 (d.label_mem f hf)
    rw [he, Option.map_some, ← Option.some.inj htarget, ← hsource, ← hlabel]

end Corresponds

end DFA

end Automata
