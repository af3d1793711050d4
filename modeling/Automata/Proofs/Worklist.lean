import Automata.Proofs.Course
import Automata.Proofs.Subsets
import Mathlib.Data.Set.Function

namespace Automata

variable {α : Type}

namespace NFA

variable [DecidableEq α] {n : NFA α}

theorem run_closed {s : StateSet} (hs : n.Closed s) (word : List α) : n.Closed (n.run s word) := by
  induction word generalizing s with
  | nil => exact hs
  | cons a word ih => exact ih (n.follow_closed s a)

theorem Arises.closed {s : StateSet} (h : n.Arises s) : n.Closed s := by
  obtain ⟨i, word, _, _, rfl⟩ := h
  exact run_closed (n.closure_closed [i]) word

end NFA

namespace Construction

variable {n : NFA α} {c : Construction n}

def handle? (c : Construction n) (s : StateSet) : Option Nat :=
  c.discovered.findIdx? (· = s)

theorem handle?_eq_some_iff {s : StateSet} {i : Nat} :
    c.handle? s = some i ↔ c.discovered[i]? = some s := by
  constructor
  · intro h
    obtain ⟨hi, hs, _⟩ := Array.findIdx?_eq_some_iff_getElem.mp h
    have hs : c.discovered[i] = s := by simpa using hs
    rw [Array.getElem?_eq_getElem hi, hs]
  · exact findIdx?_discovered

/-- Discovered sets are numbered from zero on in the order of their discovery. -/
theorem map_handle? (c : Construction n) :
    c.discovered.toList.map c.handle? = (List.range c.discovered.size).map some := by
  apply List.ext_getElem
  · simp
  · intro i hi _
    have hi : i < c.discovered.size := by simpa using hi
    simp only [List.getElem_map, Array.getElem_toList, List.getElem_range]
    exact handle?_eq_some_iff.mpr (Array.getElem?_eq_getElem hi)

/-- Handles and discovered sets correspond one to one. -/
theorem handle?_bijOn (c : Construction n) :
    Set.BijOn c.handle? {s | s ∈ c.discovered} (some '' Set.Iio c.discovered.size) := by
  refine ⟨?_, ?_, ?_⟩
  · intro s hs
    obtain ⟨i, hi⟩ := Array.mem_iff_getElem?.mp hs
    obtain ⟨hlt, _⟩ := Array.getElem?_eq_some_iff.mp hi
    exact ⟨i, hlt, (handle?_eq_some_iff.mpr hi).symm⟩
  · intro s hs t _ hst
    obtain ⟨i, hi⟩ := Array.mem_iff_getElem?.mp hs
    have ht := handle?_eq_some_iff.mp (hst.symm.trans (handle?_eq_some_iff.mpr hi))
    exact Option.some.inj (hi.symm.trans ht)
  · intro number hnumber
    obtain ⟨i, hi, rfl⟩ := hnumber
    have hs := Array.getElem?_eq_getElem hi
    exact ⟨_, Array.mem_of_getElem? hs, handle?_eq_some_iff.mpr hs⟩

variable [DecidableEq α]

/-- What holds at the head of the loop when these sets were taken. -/
structure LoopInvariant (taken : List StateSet) (c : Construction n) : Prop where
  -- The discovered sets differ, and they are numbered by the handles of the result.
  distinct : c.discovered.toList.Nodup
  size : c.dfa.size = c.discovered.size
  numbered : Set.BijOn c.handle? {s | s ∈ c.discovered} (some '' Set.Iio c.dfa.size)
  -- They are closed sets of states, and the states of the result stand for them.
  bounded : ∀ s ∈ c.discovered, ∀ i ∈ s, i < n.size
  closed : ∀ s ∈ c.discovered, n.Closed s
  states : ∀ s i, c.handle? s = some i → ∃ state, c.dfa.state? i = some state ∧
    n.setName s = .ok state.name ∧ n.anyFinal s = .ok state.accepting
  -- Those with the lowest numbers were taken, and the others wait in the order of their numbers.
  taken_le : taken.length ≤ c.dfa.size
  taken_eq : taken.map c.handle? = (List.range taken.length).map some
  waiting : c.pending.map c.handle? =
    (List.range' taken.length (c.dfa.size - taken.length)).map some
  -- Each set that was taken has an edge for each letter, to the set that follows.
  edges_size : c.dfa.edges.size = taken.length * n.alphabet.length
  drawn : ∀ i < taken.length, ∀ a ∈ n.alphabet, ∃! e, e ∈ c.dfa.edges ∧ e.source = i ∧ e.label = a
  follows : ∀ e ∈ c.dfa.edges, e.source < taken.length ∧ e.label ∈ n.alphabet ∧
    ∃ s, c.handle? s = some e.source ∧
      c.handle? (n.closure (n.step s e.label).toList) = some e.target
  -- Each state but the first is entered from a state before it.
  entered : ∀ t, 0 < t → t < c.dfa.size → ∃ e ∈ c.dfa.edges, e.target = t ∧ e.source < t

/-- The loop comes to its head with a construction, after it took these sets. -/
inductive AtHead (settings : Settings) : List StateSet → Construction n → Prop
  | first {i : Nat} {h : n.start = some i} {c : Construction n} :
      launch settings h = .ok c → AtHead settings [] c
  | again {taken rest : List StateSet} {s : StateSet} {c c' : Construction n} :
      AtHead settings taken c → c.pending = s :: rest →
      { c with pending := rest }.expand settings s = .ok c' → AtHead settings (taken ++ [s]) c'

variable {settings : Settings} {taken : List StateSet}

theorem exists_ok_of_toOption {ε β γ : Type} {x : Except ε β} {f : β → γ} {y : γ}
    (h : x.toOption.map f = some y) : ∃ b, x = .ok b ∧ f b = y := by
  cases x with
  | error e => cases h
  | ok b => exact ⟨b, rfl, Option.some.inj h⟩

theorem AtHead.course (h : AtHead settings taken c) : Course settings taken (.head c) := by
  induction h with
  | first hlaunch => exact .of_launch hlaunch
  | again _ hp hexpand ih => exact ih.expand hp hexpand

/-- A coherent construction meets every clause of the invariant at the head of a turn. -/
theorem Coherent.loopInvariant
    (h : Coherent settings c taken.length (layout n.alphabet taken.length))
    (htaken : taken = c.discovered.toList.take taken.length) : LoopInvariant taken c where
  distinct := c.distinct
  size := h.size
  numbered := h.size ▸ c.handle?_bijOn
  bounded := c.bounded
  closed s hs := (h.arises_of_mem s hs).closed
  states s i hi := by
    have hs := handle?_eq_some_iff.mp hi
    have hbounded := c.bounded s (Array.mem_of_getElem? hs)
    exact ⟨n.stateFor s, h.state hs, Diagram.setName_eq hbounded, Diagram.anyFinal_eq hbounded⟩
  taken_le := h.size ▸ h.taken_le
  taken_eq := by
    have hrange : (List.range c.discovered.size).take taken.length = List.range taken.length := by
      rw [List.take_range, Nat.min_eq_left h.taken_le]
    rw [htaken, List.map_take, map_handle?, ← List.map_take, ← htaken, hrange]
  waiting := by
    rw [h.waiting, List.map_drop, map_handle?, ← List.map_drop, List.range_eq_range',
      List.drop_range', h.size, Nat.zero_add, Nat.mul_one]
  edges_size := edges_size_of_layout h.keys_eq
  drawn i hi a ha := DFA.existsUnique_edge_of_key ((mem_keys_of_layout h.keys_eq).mpr ⟨hi, ha⟩)
  follows e he := by
    have hkey : (e.source, e.label) ∈ c.dfa.edges.toList.map Edge.key :=
      List.mem_map_of_mem (Array.mem_toList_iff.mpr he)
    obtain ⟨hsource, hlabel⟩ := (mem_keys_of_layout h.keys_eq).mp hkey
    obtain ⟨s, hs, ht⟩ := h.follows e he
    exact ⟨hsource, hlabel, s, handle?_eq_some_iff.mpr hs, handle?_eq_some_iff.mpr ht⟩
  entered t hpos ht := by
    obtain ⟨before, e, after, hedges, htarget, hsource, _⟩ := h.mentioned t hpos (h.size ▸ ht)
    exact ⟨e, Array.mem_toList_iff.mp (by simp [hedges]), htarget, hsource⟩

/-- Whenever the loop comes to its head, the sets that it took are the ones with the lowest numbers,
their edges are the only ones, and the rest of the conversion is what is left to do. -/
theorem loop_invariant (n : NFA α) (settings : Settings) (taken : List StateSet)
    (c : Construction n) (h : AtHead settings taken c) :
    run n settings = explore settings c >>= finish ∧ LoopInvariant taken c := by
  obtain ⟨count, htaken, hcoherent⟩ := h.course.invariant
  have hcount : taken.length = count := by
    rw [htaken, List.length_take, Array.length_toList, Nat.min_eq_left hcoherent.taken_le]
  subst hcount
  exact ⟨h.course.run_eq, hcoherent.loopInvariant htaken⟩

/-- After one turn the two sets wait that follow the first one. -/
theorem loop_invariant_lasso :
    ∃ c : Construction NFA.lasso, AtHead {} [NFA.lasso.closure [0]] c ∧
      c.dfa.size = 3 ∧ c.pending.map c.handle? = [some 1, some 2] ∧ c.dfa.edges.size = 2 ∧
      run NFA.lasso {} = explore {} c >>= finish := by
  have hfirst : (launch {} NFA.lasso_start).toOption.map (·.pending) =
      some [NFA.lasso.closure [0]] := by decide +kernel
  obtain ⟨c, hlaunch, hp⟩ := exists_ok_of_toOption hfirst
  have hsize : (launch {} NFA.lasso_start >>= fun c =>
      { c with pending := [] }.expand {} (NFA.lasso.closure [0])).toOption.map (·.dfa.size) =
        some 3 := by decide +kernel
  obtain ⟨c', hturn, hsize⟩ := exists_ok_of_toOption hsize
  rw [hlaunch] at hturn
  have hhead := (AtHead.first hlaunch).again hp hturn
  obtain ⟨hrun, hinvariant⟩ := loop_invariant NFA.lasso {} _ c' hhead
  have halphabet : NFA.lasso.alphabet.length = 2 := by decide +kernel
  refine ⟨c', hhead, hsize, ?_, ?_, hrun⟩
  · rw [hinvariant.waiting, hsize]
    rfl
  · rw [hinvariant.edges_size, halphabet]
    rfl

end Construction

end Automata
