import Automata.Proofs.NFAHistory
import Automata.Proofs.Simulation

namespace Automata

namespace Declaration

variable {ℓ : Type} {x : Declaration ℓ} {names : List String}

def isNamed : Declaration ℓ → Bool
  | state _ | startState _ | finalState _ | transition .. => true
  | start _ | final _ | edge .. => false

def isStart : Declaration ℓ → Bool
  | startState _ | start _ => true
  | _ => false

theorem isSome_start? (x : Declaration ℓ) (names : List String) :
    (x.start? names).isSome = x.isStart := by
  cases x <;> rfl

theorem start?_eq_some_iff (hx : x.isNamed) {i : Nat} :
    x.start? names = some i ↔ ∃ name, x = startState name ∧ names.idxOf name = i := by
  cases x with
  | startState name => simp [start?]
  | start => cases hx
  | _ => simp [start?]

theorem final?_eq_some_iff (hx : x.isNamed) {i : Nat} :
    x.final? names = some i ↔ ∃ name, x = finalState name ∧ names.idxOf name = i := by
  cases x with
  | finalState name => simp [final?]
  | final => cases hx
  | _ => simp [final?]

theorem edge?_eq_some_iff (hx : x.isNamed) {e : Edge ℓ} :
    x.edge? names = some e ↔ ∃ source target, x = transition source e.label target ∧
      names.idxOf source = e.source ∧ names.idxOf target = e.target := by
  cases x with
  | transition source label target =>
    constructor
    · intro h
      cases h
      exact ⟨source, target, rfl, rfl, rfl⟩
    · intro h
      obtain ⟨_, _, hx, hsource, htarget⟩ := h
      cases hx
      rw [edge?, hsource, htarget]
  | edge => cases hx
  | _ => simp [edge?]

variable {source target : String} {label : ℓ}

theorem source_mem_mentioned : source ∈ (transition source label target).mentioned :=
  List.mem_cons_self

theorem target_mem_mentioned : target ∈ (transition source label target).mentioned :=
  List.mem_cons_of_mem _ List.mem_cons_self

end Declaration

namespace NFA

variable {α : Type} {ds es : List (Declaration (Label α))} {m n : NFA α}

/-- What declarations by name say, whatever their order. -/
structure Described (ds : List (Declaration (Label α))) (n : NFA α) : Prop where
  known : ∀ x ∈ ds, ∀ name ∈ x.mentioned, ∃ i, n.index? name = some i
  start : ∀ {i}, n.start = some i ↔ ∃ name, .startState name ∈ ds ∧ n.index? name = some i
  final : ∀ {i}, n.isFinal i = true ↔ ∃ name, .finalState name ∈ ds ∧ n.index? name = some i
  edge : ∀ {e}, e ∈ n.edges ↔ ∃ source target, .transition source e.label target ∈ ds ∧
    n.index? source = some e.source ∧ n.index? target = some e.target

theorem Described.of_perm (h : Described es n) (perm : ds.Perm es) : Described ds n where
  known x hx := h.known x (perm.mem_iff.mp hx)
  start := by simp only [h.start, perm.mem_iff, implies_true]
  final := by simp only [h.final, perm.mem_iff, implies_true]
  edge := by simp only [h.edge, perm.mem_iff, implies_true]

/-- Two automata with one description can do the same. -/
theorem Described.simulatedBy (h : Described ds m) (h' : Described ds n) : SimulatedBy m n where
  letters a ha := by
    obtain ⟨e, he, hl⟩ := (m.mem_alphabet a).mp ha
    obtain ⟨source, target, hx, _, _⟩ := h.edge.mp he
    obtain ⟨i, hi⟩ := h'.known _ hx source Declaration.source_mem_mentioned
    obtain ⟨j, hj⟩ := h'.known _ hx target Declaration.target_mem_mentioned
    exact (n.mem_alphabet a).mpr ⟨⟨i, e.label, j⟩, h'.edge.mpr ⟨source, target, hx, hi, hj⟩, hl⟩
  start hi := by
    obtain ⟨name, hx, hi⟩ := h.start.mp hi
    obtain ⟨i', hi'⟩ := h'.known _ hx name List.mem_cons_self
    refine ⟨i', h'.start.mpr ⟨name, hx, hi'⟩, ?_⟩
    rw [Diagram.nameOf_of_index? hi', Diagram.nameOf_of_index? hi]
  edge _ he hi' hname := by
    obtain ⟨source, target, hx, hs, ht⟩ := h.edge.mp he
    obtain ⟨j', hj'⟩ := h'.known _ hx target Declaration.target_mem_mentioned
    rw [Diagram.nameOf_of_index? hs] at hname
    refine ⟨j', h'.edge.mpr ⟨source, target, hx, Diagram.index?_of_nameOf hi'.lt hname, hj'⟩, ?_⟩
    rw [Diagram.nameOf_of_index? hj', Diagram.nameOf_of_index? ht]
  final _ hi' hname hfinal := by
    obtain ⟨name, hx, hi⟩ := h.final.mp hfinal
    rw [Diagram.nameOf_of_index? hi] at hname
    exact h'.final.mpr ⟨name, hx, Diagram.index?_of_nameOf hi'.lt hname⟩

theorem setStart_of_lt {n : NFA α} {i : Nat} (h : i < n.size) : ∃ n', n.setStart i = .ok n' :=
  ⟨_, dif_pos h⟩

theorem setFinal_of_lt {n : NFA α} {i : Nat} (h : i < n.size) : ∃ n', n.setFinal i = .ok n' :=
  ⟨_, if_pos h⟩

theorem addState_lt (n : NFA α) (name : String) : (n.addState name).2 < (n.addState name).1.size :=
  n.roster.add_lt name

theorem size_le_addState (n : NFA α) (name : String) : n.size ≤ (n.addState name).1.size :=
  n.roster.size_le_add name

variable [DecidableEq α]

theorem addEdge_of_lt {n : NFA α} {i j : Nat} (hi : i < n.size) (hj : j < n.size)
    (label : Label α) : ∃ n' k, n.addEdge i label j = .ok (n', k) := by
  simp only [addEdge]
  split
  · exact ⟨_, _, rfl⟩
  · rw [dif_pos ⟨hi, hj⟩]
    exact ⟨_, _, rfl⟩

/-- Names cannot be wrong, as handles can. -/
theorem declare_named (n : NFA α) {x : Declaration (Label α)} (hx : x.isNamed) :
    ∃ n' k, n.declare x = .ok (n', k) := by
  cases x with
  | state name => exact ⟨_, _, rfl⟩
  | startState name =>
    obtain ⟨n', h⟩ := setStart_of_lt (n.addState_lt name)
    exact ⟨n', _, bind_eq_ok.mpr ⟨n', h, rfl⟩⟩
  | finalState name =>
    obtain ⟨n', h⟩ := setFinal_of_lt (n.addState_lt name)
    exact ⟨n', _, bind_eq_ok.mpr ⟨n', h, rfl⟩⟩
  | transition source label target =>
    have hsource := Nat.lt_of_lt_of_le (n.addState_lt source)
      ((n.addState source).1.size_le_addState target)
    exact addEdge_of_lt hsource ((n.addState source).1.addState_lt target) label
  | start | final | edge => cases hx

theorem extend_named (n : NFA α) {ds : List (Declaration (Label α))}
    (named : ∀ x ∈ ds, x.isNamed) : ∃ n', n.extend ds = .ok n' := by
  induction ds generalizing n with
  | nil => exact ⟨n, rfl⟩
  | cons x ds ih =>
    obtain ⟨n', k, hx⟩ := n.declare_named (named x List.mem_cons_self)
    obtain ⟨n'', hds⟩ := ih n' fun y hy => named y (List.mem_cons_of_mem x hy)
    exact ⟨n'', Builder.extend_cons.mpr ⟨n', k, hx, hds⟩⟩

theorem History.index?_eq_some_iff {base : NFA α} (h : History ds base n)
    {x : Declaration (Label α)} (hx : x ∈ ds) {name : String} (hname : name ∈ x.mentioned)
    {i : Nat} : n.index? name = some i ↔ n.roster.names.idxOf name = i := by
  rw [Diagram.index?, Roster.index?_eq_idxOf (h.mem_names hx name hname), Option.some.injEq]

/-- The states that declarations of one kind are about, by name. -/
theorem History.mem_filterMap_iff {base : NFA α} (h : History ds base n)
    {f : Declaration (Label α) → Option Nat} {kind : String → Declaration (Label α)}
    (hkind : ∀ name, name ∈ (kind name).mentioned)
    (hf : ∀ x ∈ ds, ∀ i, f x = some i ↔ ∃ name, x = kind name ∧ n.roster.names.idxOf name = i)
    (i : Nat) : i ∈ ds.filterMap f ↔ ∃ name, kind name ∈ ds ∧ n.index? name = some i := by
  rw [List.mem_filterMap]
  constructor
  · intro hi
    obtain ⟨x, hx, hi⟩ := hi
    obtain ⟨name, rfl, hplace⟩ := (hf x hx i).mp hi
    exact ⟨name, hx, (h.index?_eq_some_iff hx (hkind name)).mpr hplace⟩
  · intro hi
    obtain ⟨name, hx, hi⟩ := hi
    have hplace := (h.index?_eq_some_iff hx (hkind name)).mp hi
    exact ⟨kind name, hx, (hf _ hx i).mpr ⟨name, rfl, hplace⟩⟩

/-- The edges that declarations ask for, by name. -/
theorem History.mem_edges_iff (h : History ds empty n) (named : ∀ x ∈ ds, x.isNamed)
    {e : Edge (Label α)} : e ∈ n.edges ↔ ∃ source target,
      .transition source e.label target ∈ ds ∧ n.index? source = some e.source ∧
        n.index? target = some e.target := by
  have hedges : n.edges.toList = (ds.filterMap (Declaration.edge? n.roster.names)).eraseDups :=
    h.edges
  rw [← Array.mem_toList_iff, hedges, List.mem_eraseDups, List.mem_filterMap]
  constructor
  · intro he
    obtain ⟨x, hx, he⟩ := he
    obtain ⟨source, target, rfl, hs, ht⟩ := (Declaration.edge?_eq_some_iff (named x hx)).mp he
    exact ⟨source, target, hx,
      (h.index?_eq_some_iff hx Declaration.source_mem_mentioned).mpr hs,
      (h.index?_eq_some_iff hx Declaration.target_mem_mentioned).mpr ht⟩
  · intro he
    obtain ⟨source, target, hx, hs, ht⟩ := he
    have hs := (h.index?_eq_some_iff hx Declaration.source_mem_mentioned).mp hs
    have ht := (h.index?_eq_some_iff hx Declaration.target_mem_mentioned).mp ht
    exact ⟨_, hx, (Declaration.edge?_eq_some_iff (named _ hx)).mpr ⟨source, target, rfl, hs, ht⟩⟩

/-- With one start and names throughout, an automaton is described by its declarations. -/
theorem History.described (h : History ds empty n) (named : ∀ x ∈ ds, x.isNamed)
    (once : ds.countP Declaration.isStart = 1) : Described ds n where
  known x hx name hname := ⟨_, (h.index?_eq_some_iff hx hname).mpr rfl⟩
  start := by
    intro i
    -- Of several starts the latest would count, so that their order would matter.
    have hlength : (ds.filterMap (Declaration.start? n.roster.names)).length = 1 := by
      rw [List.length_filterMap_eq_countP]
      simpa only [Declaration.isSome_start?] using once
    have honly : n.start = some i ↔ i ∈ ds.filterMap (Declaration.start? n.roster.names) := by
      obtain ⟨j, hj⟩ := List.length_eq_one_iff.mp hlength
      rw [h.start, hj]
      simp [empty, Diagram.empty, eq_comm]
    exact honly.trans (h.mem_filterMap_iff (fun _ => List.mem_cons_self)
      (fun x hx _ => Declaration.start?_eq_some_iff (named x hx)) i)
  final := by
    intro i
    have honly : n.isFinal i = true ↔ i ∈ ds.filterMap (Declaration.final? n.roster.names) := by
      rw [h.final, isFinal_empty]
      simp
    exact honly.trans (h.mem_filterMap_iff (fun _ => List.mem_cons_self)
      (fun x hx _ => Declaration.final?_eq_some_iff (named x hx)) i)
  edge := h.mem_edges_iff named

/-- Declarations by name can be made in any order, and the automata can do the same. -/
theorem build_perm (named : ∀ x ∈ ds, x.isNamed) (once : ds.countP Declaration.isStart = 1)
    (perm : ds.Perm es) : ∃ m n, build ds = .ok m ∧ build es = .ok n ∧ m.Bisimilar n := by
  have named' : ∀ x ∈ es, x.isNamed := fun x hx => named x (perm.mem_iff.mpr hx)
  obtain ⟨m, hm⟩ := empty.extend_named named
  obtain ⟨n, hn⟩ := empty.extend_named named'
  have hds := (extend_history hm).described named once
  have hes := ((extend_history hn).described named' (perm.countP_eq _ ▸ once)).of_perm perm
  exact ⟨m, n, hm, hn, hds.simulatedBy hes, hes.simulatedBy hds⟩

/-- Declarations by name, one of them of a start, can be permuted: both automata can be built, and
under any settings their conversions are refused with one error or give automata that agree by
name. -/
theorem determinize_perm (ds es : List (Declaration (Label α)))
    (named : ∀ x ∈ ds, x.isNamed = true) (once : ds.countP Declaration.isStart = 1)
    (perm : ds.Perm es) :
    ∃ m n, build ds = .ok m ∧ build es = .ok n ∧ ∀ settings,
      (∃ error, (m.determinize settings).result = .error (.refused error) ∧
        (n.determinize settings).result = .error (.refused error)) ∨
      ∃ d e, (m.determinize settings).result = .ok d ∧ (n.determinize settings).result = .ok e ∧
        d.AgreeByName e := by
  obtain ⟨m, n, hm, hn, h⟩ := build_perm named once perm
  exact ⟨m, n, hm, hn, h.determinize⟩

/-- Two ways from the start with one letter, an epsilon edge between them, and a state on its
own. -/
def forked : List (Declaration (Label Char)) :=
  [.startState "p", .transition "p" (.symbol 'a') "q", .transition "p" (.symbol 'a') "r",
    .transition "q" (.symbol 'b') "p", .transition "r" .epsilon "q", .finalState "r", .state "s"]

/-- In the opposite order there are other handles and another order of letters. -/
theorem determinize_perm_forked :
    ∃ m n d e, build forked = .ok m ∧ build forked.reverse = .ok n ∧
      m.roster.names = ["p", "q", "r", "s"] ∧ n.roster.names = ["s", "r", "q", "p"] ∧
      m.alphabet = ['a', 'b'] ∧ n.alphabet = ['b', 'a'] ∧
      (m.determinize {}).result = .ok d ∧ (n.determinize {}).result = .ok e ∧ d.AgreeByName e := by
  obtain ⟨m, n, hm, hn, h⟩ := determinize_perm forked forked.reverse (by decide) (by decide)
    (List.reverse_perm forked).symm
  have hds : (build forked).toOption.map (fun n => (n.roster.names, n.alphabet)) =
      some (["p", "q", "r", "s"], ['a', 'b']) := by decide +kernel
  have hes : (build forked.reverse).toOption.map (fun n => (n.roster.names, n.alphabet)) =
      some (["s", "r", "q", "p"], ['b', 'a']) := by decide +kernel
  have hok : (build forked).toOption.any fun m => (m.determinize {}).result.isOk := by
    decide +kernel
  rw [hm] at hds hok
  rw [hn] at hes
  obtain ⟨hnames, halphabet⟩ := Prod.mk.inj (Option.some.inj hds)
  obtain ⟨hnames', halphabet'⟩ := Prod.mk.inj (Option.some.inj hes)
  rcases h {} with ⟨error, hrefused, _⟩ | ⟨d, e, hd, he, hagree⟩
  · simp [Except.toOption, hrefused, Except.isOk, Except.toBool] at hok
  · exact ⟨m, n, d, e, hm, hn, hnames, hnames', halphabet, halphabet', hd, he, hagree⟩

end NFA

end Automata
