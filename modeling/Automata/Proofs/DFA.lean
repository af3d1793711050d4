import Automata.DFA.Run
import Automata.Proofs.Naming
import Mathlib.Data.List.Nodup

namespace Automata

/-- A search finds the one element that has a property. -/
theorem find?_eq_some_iff_of_unique {β : Type} {xs : List β} {p : β → Bool}
    (unique : ∀ x ∈ xs, ∀ y ∈ xs, p x = true → p y = true → x = y) {x : β} :
    xs.find? p = some x ↔ x ∈ xs ∧ p x = true := by
  constructor
  · exact fun h => ⟨List.mem_of_find?_eq_some h, List.find?_some h⟩
  · rintro ⟨hx, hp⟩
    obtain ⟨y, hy⟩ := Option.isSome_iff_exists.mp (List.find?_isSome.mpr ⟨x, hx, hp⟩)
    rw [hy, unique x hx y (List.mem_of_find?_eq_some hy) hp (List.find?_some hy)]

namespace DFA

variable {α : Type}

theorem pushState_eq {d : DFA α} {s : State} (fresh : s.name ∉ d.states.map State.name) :
    ∃ d', d.pushState s = .ok (d', d.size) ∧ d'.states = d.states ++ [s] ∧
      d'.edges = d.edges ∧ d'.start = d.start ∧ d'.alphabet = d.alphabet := by
  refine ⟨_, dif_pos (Roster.index?_eq_none_iff.mpr fresh), ?_, rfl, rfl, rfl⟩
  exact Array.toList_push

theorem setStart_eq {d : DFA α} {i : Nat} (h : i < d.size) :
    ∃ d', d.setStart i = .ok d' ∧ d'.states = d.states ∧
      d'.edges = d.edges ∧ d'.start = some i ∧ d'.alphabet = d.alphabet :=
  ⟨_, dif_pos h, rfl, rfl, rfl, rfl⟩

/-- An automaton is known by its states, its start, its edges and its alphabet. -/
theorem eq_of_parts {d e : DFA α} (states : d.states = e.states) (start : d.start = e.start)
    (edges : d.edges = e.edges) (alphabet : d.alphabet = e.alphabet) : d = e := by
  have hroster : d.roster = e.roster := Roster.ext (Array.toList_inj.mp states)
  obtain ⟨⟨_, _, _, _, _⟩, _, _, _, _⟩ := d
  obtain ⟨⟨_, _, _, _, _⟩, _, _, _, _⟩ := e
  simp only at hroster start edges alphabet
  subst hroster start edges alphabet
  rfl

theorem eq_of_key_eq {d : DFA α} {e f : Edge α} (he : e ∈ d.edges) (hf : f ∈ d.edges)
    (h : e.key = f.key) : e = f :=
  List.inj_on_of_nodup_map d.keys_nodup (Array.mem_toList_iff.mpr he) (Array.mem_toList_iff.mpr hf) h

/-- An edge is the only one with its state and its letter. -/
theorem existsUnique_edge_of_key {d : DFA α} {i : Nat} {a : α}
    (h : (i, a) ∈ d.edges.toList.map Edge.key) :
    ∃! e, e ∈ d.edges ∧ e.source = i ∧ e.label = a := by
  obtain ⟨e, he, hkey⟩ := List.mem_map.mp h
  have he := Array.mem_toList_iff.mp he
  refine ⟨e, ⟨he, key_eq_iff.mp hkey⟩, ?_⟩
  intro f hf
  exact eq_of_key_eq hf.1 he ((key_eq_iff.mpr hf.2).trans hkey.symm)

variable [DecidableEq α]

/-- An edge for a state and a letter that have none yet goes to the end. -/
theorem addEdge_fresh {d : DFA α} {i t : Nat} {a : α} (hi : i < d.size) (ht : t < d.size)
    (fresh : (i, a) ∉ d.edges.toList.map Edge.key) (ha : a ∈ d.alphabet) :
    ∃ d', d.addEdge i a t = .ok (d', d.edges.size) ∧ d'.edges = d.edges.push ⟨i, a, t⟩ ∧
      d'.states = d.states ∧ d'.start = d.start ∧ d'.alphabet = d.alphabet := by
  have hnone : d.edges.findIdx? (leaves i a) = none := by
    apply Array.findIdx?_eq_none_iff.mpr
    intro e he
    have hkey : ¬ leaves i a e := by
      intro hl
      exact fresh (List.mem_map.mpr ⟨e, Array.mem_toList_iff.mpr he, leaves_iff.mp hl⟩)
    simpa using hkey
  unfold addEdge
  split
  · rename_i k hk
    rw [hnone] at hk
    cases hk
  · rw [dif_pos ⟨hi, ht⟩]
    exact ⟨_, rfl, rfl, rfl, rfl, if_pos ha⟩

/-- A state has at most one edge for a letter, and its target is found. -/
theorem target?_eq_some_iff {d : DFA α} {i t : Nat} {a : α} :
    d.target? i a = some t ↔ ⟨i, a, t⟩ ∈ d.edges := by
  have unique : ∀ e ∈ d.edges.toList, ∀ f ∈ d.edges.toList, leaves i a e = true →
      leaves i a f = true → e = f := by
    intro e he f hf hekey hfkey
    exact eq_of_key_eq (Array.mem_toList_iff.mp he) (Array.mem_toList_iff.mp hf)
      ((leaves_iff.mp hekey).trans (leaves_iff.mp hfkey).symm)
  rw [target?, ← Array.find?_toList, Option.map_eq_some_iff]
  simp only [find?_eq_some_iff_of_unique unique, Array.mem_toList_iff]
  constructor
  · rintro ⟨e, ⟨he, hkey⟩, rfl⟩
    obtain ⟨rfl, rfl⟩ := key_eq_iff.mp (leaves_iff.mp hkey)
    exact he
  · exact fun h => ⟨_, ⟨h, leaves_iff.mpr rfl⟩, rfl⟩

theorem mem_keys_iff {d : DFA α} {i : Nat} {a : α} :
    (i, a) ∈ d.edges.toList.map Edge.key ↔ (d.target? i a).isSome := by
  simp [target?, leaves_iff]

theorem mem_alphabet_of_target? {d : DFA α} {i t : Nat} {a : α} (h : d.target? i a = some t) :
    a ∈ d.alphabet :=
  d.label_mem _ (target?_eq_some_iff.mp h)

theorem target?_lt {d : DFA α} {i t : Nat} {a : α} (h : d.target? i a = some t) : t < d.size :=
  (d.ends_lt _ (target?_eq_some_iff.mp h)).2

/-- No gap is found exactly where every state has a target for every letter. -/
theorem gap?_eq_none_iff {d : DFA α} :
    d.gap? = none ↔ ∀ i < d.size, ∀ a ∈ d.alphabet, ∃ t, d.target? i a = some t := by
  simp only [gap?, List.findSome?_eq_none_iff, Diagram.handles, List.mem_range]
  constructor
  · intro h i hi a ha
    obtain ⟨s, hs⟩ := Diagram.state?_of_lt hi
    have hgap := h i hi
    rw [hs, Option.bind_some, List.findSome?_eq_none_iff] at hgap
    have hsome : d.target? i a ≠ none := by simpa using hgap a ha
    exact Option.ne_none_iff_exists'.mp hsome
  · intro h i hi
    obtain ⟨s, hs⟩ := Diagram.state?_of_lt hi
    rw [hs, Option.bind_some, List.findSome?_eq_none_iff]
    intro a ha
    obtain ⟨t, ht⟩ := h i hi a ha
    simp [ht]

theorem run_cons (d : DFA α) (i : Nat) (a : α) (word : List α) :
    d.run i (a :: word) = (d.target? i a).bind (d.run · word) := rfl

/-- A run ends in a state of the automaton. -/
theorem run_lt_size {d : DFA α} {i t : Nat} {word : List α} (hi : i < d.size)
    (h : d.run i word = some t) : t < d.size := by
  induction word generalizing i with
  | nil =>
    obtain rfl : i = t := Option.some.inj h
    exact hi
  | cons a word ih =>
    rw [run_cons] at h
    obtain ⟨j, hj, hrest⟩ := Option.bind_eq_some_iff.mp h
    exact ih (target?_lt hj) hrest

/-- A run reads letters of the alphabet only. -/
theorem mem_alphabet_of_run {d : DFA α} {i t : Nat} {word : List α} (h : d.run i word = some t) :
    ∀ a ∈ word, a ∈ d.alphabet := by
  induction word generalizing i with
  | nil => simp
  | cons a word ih =>
    rw [run_cons] at h
    obtain ⟨j, hj, hrest⟩ := Option.bind_eq_some_iff.mp h
    intro b hb
    rcases List.mem_cons.mp hb with rfl | hb
    · exact mem_alphabet_of_target? hj
    · exact ih hrest b hb

theorem accepts_iff {d : DFA α} {i : Nat} (hi : d.start = some i) {word : List α} :
    d.accepts word ↔ ∃ t, d.run i word = some t ∧ d.isFinal t := by
  unfold accepts
  rw [hi, Option.bind_some]
  cases d.run i word with
  | none => simp
  | some t => simp

end DFA

end Automata
