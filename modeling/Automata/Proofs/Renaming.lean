import Automata.Proofs.Correspondence
import Automata.Proofs.DeclarationOrder

namespace Automata

variable {α β : Type}

namespace Label

def map (g : α → β) : Label α → Label β
  | symbol a => symbol (g a)
  | epsilon => epsilon

theorem map_injective {g : α → β} (hg : Function.Injective g) :
    Function.Injective (map g) := by
  rintro (a | _) (b | _) h
  · exact congrArg symbol (hg (symbol.inj h))
  · cases h
  · cases h
  · rfl

theorem letter?_map (g : α → β) (label : Label α) :
    (label.map g).letter? = label.letter?.map g := by
  cases label <;> rfl

end Label

def Edge.map {ℓ ℓ' : Type} (r : ℓ → ℓ') (e : Edge ℓ) : Edge ℓ' :=
  ⟨e.source, r e.label, e.target⟩

theorem Edge.map_injective {ℓ ℓ' : Type} {r : ℓ → ℓ'} (hr : Function.Injective r) :
    Function.Injective (Edge.map r) := by
  rintro ⟨source, label, target⟩ ⟨source', label', target'⟩ h
  simp only [Edge.map, Edge.mk.injEq] at h
  obtain ⟨rfl, hlabel, rfl⟩ := h
  rw [hr hlabel]

def State.rename (f : String → String) (s : State) : State :=
  { s with name := f s.name }

def Declaration.rename {ℓ ℓ' : Type} (f : String → String) (r : ℓ → ℓ') :
    Declaration ℓ → Declaration ℓ'
  | state name => .state (f name)
  | startState name => .startState (f name)
  | finalState name => .finalState (f name)
  | start handle => .start handle
  | final handle => .final handle
  | transition source label target => .transition (f source) (r label) (f target)
  | edge source label target => .edge source (r label) target

namespace Roster

variable {f : String → String} {r r' : Roster} (h : r'.states = r.states.map (State.rename f))
include h

theorem size_renamed : r'.size = r.size := by
  rw [size, size, h, Array.size_map]

theorem state?_renamed (i : Nat) : r'.state? i = (r.state? i).map (State.rename f) := by
  rw [state?, h, Array.getElem?_map]
  rfl

theorem accept_renamed (i : Nat) :
    (r'.accept i).states = (r.accept i).states.map (State.rename f) := by
  apply Array.ext_getElem?
  intro j
  rw [Array.getElem?_map]
  change (r'.accept i).state? j = ((r.accept i).state? j).map (State.rename f)
  rw [state?_accept, state?_accept, state?_renamed h]
  split
  · cases r.state? j <;> rfl
  · rfl

variable (hf : Function.Injective f)
include hf

theorem index?_renamed (name : String) : r'.index? (f name) = r.index? name := by
  refine Option.ext fun i => ?_
  rw [index?_eq_some_iff, index?_eq_some_iff, names_getElem?, names_getElem?, state?_renamed h]
  cases r.state? i <;> simp [State.rename, hf.eq_iff]

/-- A name that is new stays new under its other name. -/
theorem add_renamed (name : String) :
    (r'.add (f name)).1.states = (r.add name).1.states.map (State.rename f) ∧
      (r'.add (f name)).2 = (r.add name).2 := by
  have hindex := index?_renamed h hf name
  unfold add
  split <;> split
  · rename_i i hi j hj
    rw [hi, hj] at hindex
    exact ⟨h, Option.some.inj hindex⟩
  · rename_i i hi hnone
    rw [hi, hnone] at hindex
    cases hindex
  · rename_i hnone j hj
    rw [hnone, hj] at hindex
    cases hindex
  · refine ⟨?_, size_renamed h⟩
    simp [push, h, State.rename]

end Roster

namespace NFA

/-- The same automaton with other names and other letters. -/
structure Renamed (f : String → String) (g : α → β) (m : NFA α) (n : NFA β) : Prop where
  states : n.roster.states = m.roster.states.map (State.rename f)
  start : n.start = m.start
  edges : n.edges = m.edges.map (Edge.map (Label.map g))
  alphabet : n.alphabet = m.alphabet.map g

variable {f : String → String} {g : α → β} {m m' : NFA α} {n : NFA β}

theorem Renamed.empty : Renamed f g empty empty where
  states := by simp [NFA.empty, Diagram.empty, Roster.empty]
  start := rfl
  edges := by simp [NFA.empty, Diagram.empty]
  alphabet := rfl

theorem Renamed.size_eq (h : Renamed f g m n) : n.size = m.size :=
  Roster.size_renamed h.states

theorem Renamed.isFinal_eq (h : Renamed f g m n) : n.isFinal = m.isFinal := by
  funext i
  rw [Diagram.isFinal, Diagram.state?, Roster.state?_renamed h.states, Option.any_map]
  rfl

theorem Renamed.addState (h : Renamed f g m n) (hf : Function.Injective f) (name : String) :
    Renamed f g (m.addState name).1 (n.addState (f name)).1 ∧
      (n.addState (f name)).2 = (m.addState name).2 := by
  obtain ⟨hstates, hindex⟩ := Roster.add_renamed h.states hf name
  exact ⟨⟨hstates, h.start, h.edges, h.alphabet⟩, hindex⟩

theorem Renamed.setStart {i : Nat} (h : Renamed f g m n) (hm : m.setStart i = .ok m') :
    ∃ n', n.setStart i = .ok n' ∧ Renamed f g m' n' := by
  unfold NFA.setStart at hm
  split at hm
  · rename_i hi
    cases hm
    exact ⟨_, dif_pos (h.size_eq ▸ hi), h.states, rfl, h.edges, h.alphabet⟩
  · cases hm

theorem Renamed.setFinal {i : Nat} (h : Renamed f g m n) (hm : m.setFinal i = .ok m') :
    ∃ n', n.setFinal i = .ok n' ∧ Renamed f g m' n' := by
  unfold NFA.setFinal at hm
  split at hm
  · rename_i hi
    cases hm
    exact ⟨_, if_pos (h.size_eq ▸ hi), Roster.accept_renamed h.states i, h.start, h.edges,
      h.alphabet⟩
  · cases hm

theorem Renamed.mem_edges_iff {i j : Nat} {label : Label β} (h : Renamed f g m n) :
    ⟨i, label, j⟩ ∈ n.edges ↔ ∃ l, ⟨i, l, j⟩ ∈ m.edges ∧ label = l.map g := by
  rw [h.edges, Array.mem_map]
  constructor
  · rintro ⟨e, he, hmap⟩
    cases hmap
    exact ⟨e.label, he, rfl⟩
  · rintro ⟨l, he, rfl⟩
    exact ⟨_, he, rfl⟩

/-- The paths are the same, with other labels on them. -/
theorem Renamed.path_iff {i j : Nat} {labels : List (Label β)} (h : Renamed f g m n) :
    n.Path i labels j ↔ ∃ ls, m.Path i ls j ∧ labels = ls.map (Label.map g) := by
  constructor
  · intro hp
    induction hp with
    | nil i => exact ⟨[], .nil i, rfl⟩
    | cons he _ ih =>
      obtain ⟨l, hl, rfl⟩ := h.mem_edges_iff.mp he
      obtain ⟨ls, hls, rfl⟩ := ih
      exact ⟨l :: ls, .cons hl hls, rfl⟩
  · rintro ⟨ls, hp, rfl⟩
    induction hp with
    | nil i => exact .nil i
    | cons he _ ih => exact .cons (h.mem_edges_iff.mpr ⟨_, he, rfl⟩) ih

theorem filterMap_letter?_map (g : α → β) (labels : List (Label α)) :
    (labels.map (Label.map g)).filterMap Label.letter? =
      (labels.filterMap Label.letter?).map g := by
  rw [List.filterMap_map, List.map_filterMap]
  exact List.filterMap_congr fun label _ => Label.letter?_map g label

theorem Renamed.leads_iff {i j : Nat} {word : List α} (h : Renamed f g m n)
    (hg : Function.Injective g) : n.Leads i (word.map g) j ↔ m.Leads i word j := by
  constructor
  · rintro ⟨_, hp, hword⟩
    obtain ⟨ls, hls, rfl⟩ := h.path_iff.mp hp
    rw [filterMap_letter?_map] at hword
    exact ⟨ls, hls, hg.list_map hword⟩
  · rintro ⟨ls, hp, rfl⟩
    exact ⟨_, h.path_iff.mpr ⟨ls, hp, rfl⟩, filterMap_letter?_map g ls⟩

/-- A word and the renamed word lead to the same handles. -/
theorem Renamed.reached_eq (h : Renamed f g m n) (hg : Function.Injective g) (word : List α) :
    n.reached (word.map g) = m.reached word := by
  ext j
  change (∃ i, n.start = some i ∧ _) ↔ ∃ i, m.start = some i ∧ _
  simp only [h.start, h.leads_iff hg]

theorem Renamed.subsets_eq (h : Renamed f g m n) (hg : Function.Injective g) :
    n.subsets = m.subsets := by
  ext states
  constructor
  · rintro ⟨word, hword, rfl⟩
    obtain ⟨v, hv, rfl⟩ := Word.exists_of_mem_map (h.alphabet ▸ hword)
    exact ⟨v, hv, (h.reached_eq hg v).symm⟩
  · rintro ⟨word, hword, rfl⟩
    exact ⟨word.map g, h.alphabet ▸ Word.mem_map_of_mem hword, h.reached_eq hg word⟩

variable [DecidableEq α] [DecidableEq β]

theorem withLetter_map (hg : Function.Injective g) (alphabet : List α) (label : Label α) :
    withLetter (alphabet.map g) (label.map g) = (withLetter alphabet label).map g := by
  cases label with
  | epsilon => rfl
  | symbol a =>
    simp only [withLetter, Label.map, List.mem_map_of_injective hg]
    split <;> simp

/-- The renamed edge is pushed where the edge is. -/
theorem Renamed.pushEdge {e : Edge (Label α)} (h : Renamed f g m n) (hg : Function.Injective g)
    {hs : e.source < m.size} {ht : e.target < m.size} {fresh : e ∉ m.edges}
    {hs' : e.source < n.size} {ht' : e.target < n.size}
    {fresh' : e.map (Label.map g) ∉ n.edges} :
    Renamed f g (m.pushEdge e hs ht fresh) (n.pushEdge (e.map (Label.map g)) hs' ht' fresh') where
  states := h.states
  start := h.start
  edges := by
    change n.edges.push (e.map (Label.map g)) = (m.edges.push e).map (Edge.map (Label.map g))
    rw [h.edges, Array.map_push]
  alphabet := by
    change withLetter n.alphabet (e.label.map g) = (withLetter m.alphabet e.label).map g
    rw [h.alphabet, withLetter_map hg]

/-- An edge that is new stays new, and one that is there stays in its place. -/
theorem Renamed.addEdge {i j k : Nat} {label : Label α} (h : Renamed f g m n)
    (hg : Function.Injective g) (hm : m.addEdge i label j = .ok (m', k)) :
    ∃ n', n.addEdge i (label.map g) j = .ok (n', k) ∧ Renamed f g m' n' := by
  have hinjective := Edge.map_injective (Label.map_injective hg)
  have hfind : n.edges.findIdx? (· = Edge.map (Label.map g) ⟨i, label, j⟩) =
      m.edges.findIdx? (· = ⟨i, label, j⟩) := by
    rw [h.edges]
    simp [Array.findIdx?_map, Function.comp_def, hinjective.eq_iff]
  simp only [NFA.addEdge] at hm ⊢
  split at hm <;> split
  · rename_i l hl l' hl'
    obtain rfl := Option.some.inj (hl'.symm.trans (hfind.trans hl))
    cases hm
    exact ⟨n, rfl, h⟩
  · rename_i l hl hnone
    cases hnone.symm.trans (hfind.trans hl)
  · rename_i hnone l' hl'
    cases hl'.symm.trans (hfind.trans hnone)
  · split at hm
    · rename_i hends
      cases hm
      have hends' : i < n.size ∧ j < n.size := h.size_eq ▸ hends
      have hsize : n.edges.size = m.edges.size := by rw [h.edges, Array.size_map]
      rw [dif_pos hends', hsize]
      exact ⟨_, rfl, h.pushEdge hg⟩
    · cases hm

theorem Renamed.addTransition {source target : String} {k : Nat} {label : Label α}
    (h : Renamed f g m n) (hf : Function.Injective f) (hg : Function.Injective g)
    (hm : builder.addTransition m source label target = .ok (m', k)) :
    ∃ n', builder.addTransition n (f source) (label.map g) (f target) = .ok (n', k) ∧
      Renamed f g m' n' := by
  obtain ⟨hsource, hi⟩ := h.addState hf source
  obtain ⟨htarget, hj⟩ := hsource.addState hf target
  obtain ⟨n', hn, hrenamed⟩ := htarget.addEdge hg hm
  refine ⟨n', ?_, hrenamed⟩
  change ((n.addState (f source)).1.addState (f target)).1.addEdge (n.addState (f source)).2
    (label.map g) ((n.addState (f source)).1.addState (f target)).2 = _
  rw [hi, hj]
  exact hn

/-- A declaration does the same under other names, and answers with the same handle. -/
theorem Renamed.declare {x : Declaration (Label α)} {k : Nat} (h : Renamed f g m n)
    (hf : Function.Injective f) (hg : Function.Injective g) (hm : m.declare x = .ok (m', k)) :
    ∃ n', n.declare (x.rename f (Label.map g)) = .ok (n', k) ∧ Renamed f g m' n' := by
  cases x with
  | state name =>
    cases hm
    obtain ⟨hadded, hi⟩ := h.addState hf name
    exact ⟨_, congrArg Except.ok (Prod.ext rfl hi), hadded⟩
  | startState name =>
    obtain ⟨hadded, hi⟩ := h.addState hf name
    obtain ⟨m₁, hset, hm⟩ := bind_eq_ok.mp hm
    cases hm
    obtain ⟨n', hn, hrenamed⟩ := hadded.setStart (hi ▸ hset)
    exact ⟨n', bind_eq_ok.mpr ⟨n', hn, congrArg Except.ok (Prod.ext rfl hi)⟩, hrenamed⟩
  | finalState name =>
    obtain ⟨hadded, hi⟩ := h.addState hf name
    obtain ⟨m₁, hset, hm⟩ := bind_eq_ok.mp hm
    cases hm
    obtain ⟨n', hn, hrenamed⟩ := hadded.setFinal (hi ▸ hset)
    exact ⟨n', bind_eq_ok.mpr ⟨n', hn, congrArg Except.ok (Prod.ext rfl hi)⟩, hrenamed⟩
  | start i =>
    obtain ⟨m₁, hset, hm⟩ := bind_eq_ok.mp hm
    cases hm
    obtain ⟨n', hn, hrenamed⟩ := h.setStart hset
    exact ⟨n', bind_eq_ok.mpr ⟨n', hn, rfl⟩, hrenamed⟩
  | final i =>
    obtain ⟨m₁, hset, hm⟩ := bind_eq_ok.mp hm
    cases hm
    obtain ⟨n', hn, hrenamed⟩ := h.setFinal hset
    exact ⟨n', bind_eq_ok.mpr ⟨n', hn, rfl⟩, hrenamed⟩
  | transition source label target => exact h.addTransition hf hg hm
  | edge source label target => exact h.addEdge hg hm

/-- Renamed declarations build the renamed automaton. -/
theorem Renamed.extend {ds : List (Declaration (Label α))} (h : Renamed f g m n)
    (hf : Function.Injective f) (hg : Function.Injective g) (hm : m.extend ds = .ok m') :
    ∃ n', n.extend (ds.map (Declaration.rename f (Label.map g))) = .ok n' ∧
      Renamed f g m' n' := by
  induction ds generalizing m n with
  | nil =>
    cases hm
    exact ⟨n, rfl, h⟩
  | cons x ds ih =>
    obtain ⟨m₁, k, hx, hds⟩ := Builder.extend_cons.mp hm
    obtain ⟨n₁, hn, hrenamed⟩ := h.declare hf hg hx
    obtain ⟨n', hn', hrenamed'⟩ := ih hrenamed hds
    exact ⟨n', Builder.extend_cons.mpr ⟨n₁, k, hn, hn'⟩, hrenamed'⟩

end NFA

theorem Diagram.isFinal_of_not_lt {ℓ : Type} {d : Diagram ℓ} {i : Nat} (h : ¬ i < d.size) :
    d.isFinal i = false := by
  have hnone : d.state? i = none := Array.getElem?_eq_none (Nat.le_of_not_lt h)
  rw [isFinal, hnone]
  rfl

/-- The same automaton handle by handle, but for the names of the states, with other letters. -/
structure DFA.Renamed (g : α → β) (d : DFA α) (e : DFA β) : Prop where
  size : e.size = d.size
  start : e.start = d.start
  final : ∀ i, e.isFinal i = d.isFinal i
  edges : e.edges.toList = d.edges.toList.map (Edge.map g)
  alphabet : e.alphabet = d.alphabet.map g

variable [DecidableEq α] [DecidableEq β] {f : String → String} {g : α → β} {m : NFA α} {n : NFA β}

namespace Construction

variable {settings other : Settings} {c : Construction m} {c' : Construction n}

/-- Constructions over an automaton and a renamed one give results of the same shape. -/
theorem Finished.corresponds_of_renamed (h : m.Renamed f g n) (hg : Function.Injective g)
    (hc : Finished settings c) (hc' : Finished other c') : DFA.Corresponds g c.dfa c'.dfa where
  left := hc.breadthFirst
  right := hc'.breadthFirst
  injective := hg
  alphabet := by rw [hc.alphabet, hc'.alphabet, h.alphabet]
  run_eq_iff v w hv hw := by
    rw [hc.alphabet] at hv hw
    have hv' := h.alphabet ▸ Word.mem_map_of_mem hv
    have hw' := h.alphabet ▸ Word.mem_map_of_mem hw
    rw [hc.run_eq_iff hv hw, hc'.run_eq_iff hv' hw', h.reached_eq hg, h.reached_eq hg]

/-- The state with a handle stands for the same set in both results. -/
theorem Finished.isFinal_renamed (h : m.Renamed f g n) (hg : Function.Injective g)
    (hc : Finished settings c) (hc' : Finished other c') (i : Nat) :
    c'.dfa.isFinal i = c.dfa.isFinal i := by
  have hcorresponds := hc.corresponds_of_renamed h hg hc'
  by_cases hi : i < c.dfa.size
  · obtain ⟨word, hword, hrun⟩ := hc.word hi
    obtain ⟨t, s, ht, hs, hreached⟩ := hc.run_reached hword
    obtain ⟨t', s', ht', hs', hreached'⟩ :=
      hc'.run_reached (h.alphabet ▸ Word.mem_map_of_mem (g := g) hword)
    obtain rfl := Option.some.inj (hrun.symm.trans ht)
    have hsame := hcorresponds.run_map (hc.alphabet ▸ hword)
    rw [ht', hrun] at hsame
    obtain rfl := Option.some.inj hsame
    rw [h.reached_eq hg, ← hreached] at hreached'
    obtain rfl := StateSet.toSet_injective hreached'
    rw [Diagram.isFinal_eq (hc'.state hs'), Diagram.isFinal_eq (hc.state hs)]
    simp only [Diagram.stateFor, h.isFinal_eq]
  · have hi' : ¬ i < c'.dfa.size := hcorresponds.size_eq ▸ hi
    rw [Diagram.isFinal_of_not_lt hi, Diagram.isFinal_of_not_lt hi']

theorem Finished.renamed (h : m.Renamed f g n) (hg : Function.Injective g)
    (hc : Finished settings c) (hc' : Finished other c') : c.dfa.Renamed g c'.dfa where
  size := (hc.corresponds_of_renamed h hg hc').size_eq
  start := hc'.start.trans hc.start.symm
  final := hc.isFinal_renamed h hg hc'
  edges := (hc.corresponds_of_renamed h hg hc').edges_eq
  alphabet := (hc.corresponds_of_renamed h hg hc').alphabet

end Construction

namespace NFA

/-- Declarations with other names and other letters describe an automaton if they did so before, and
its letters are the other ones in their order. Under any settings the conversions are refused with
one error or give the same automaton, but for the names of its states, with the other letters. -/
theorem determinize_renamed (f : String → String) (g : α → β) (hf : Function.Injective f)
    (hg : Function.Injective g) (ds : List (Declaration (Label α))) (m : NFA α)
    (hm : build ds = .ok m) :
    ∃ n, build (ds.map (Declaration.rename f (Label.map g))) = .ok n ∧
      n.alphabet = m.alphabet.map g ∧
      ∀ settings,
        (∃ error, (m.determinize settings).result = .error (.refused error) ∧
          (n.determinize settings).result = .error (.refused error)) ∨
        ∃ d e, (m.determinize settings).result = .ok d ∧ (n.determinize settings).result = .ok e ∧
          d.Renamed g e := by
  obtain ⟨n, hn, h⟩ := Renamed.empty.extend hf hg hm
  refine ⟨n, hn, h.alphabet, ?_⟩
  intro settings
  have hstart : m.start = none ↔ n.start = none := by rw [h.start]
  have hcard : m.subsets.ncard = n.subsets.ncard := by rw [h.subsets_eq hg]
  rcases determinize_alike hstart hcard settings with hrefused | ⟨d, e, hd, he⟩
  · exact .inl hrefused
  · obtain ⟨c, hc, rfl⟩ := finished_of_determinize hd
    obtain ⟨c', hc', rfl⟩ := finished_of_determinize he
    exact .inr ⟨c.dfa, c'.dfa, hd, he, hc.renamed h hg hc'⟩

/-- Numbers for letters, in the opposite order. -/
def negativeCode (c : Char) : Int :=
  -c.toNat

theorem negativeCode_injective : Function.Injective negativeCode := by
  intro c d h
  have hcode : c.toNat = d.toNat := by
    unfold negativeCode at h
    omega
  exact Char.toNat_inj.mp hcode

/-- With two names exchanged the members of a set are named in another order. -/
theorem determinize_renamed_forked :
    ∃ m n d e, build forked = .ok m ∧
      build (forked.map (Declaration.rename (Equiv.swap "q" "s") (Label.map negativeCode))) =
        .ok n ∧
      m.alphabet = ['a', 'b'] ∧ n.alphabet = [-97, -98] ∧
      (m.determinize {}).result = .ok d ∧ (n.determinize {}).result = .ok e ∧
      d.states.map State.name = ["[p]", "[q, r]", "[]"] ∧
      e.states.map State.name = ["[p]", "[r, s]", "[]"] ∧ d.Renamed negativeCode e := by
  obtain ⟨m, hm⟩ : ∃ m, build forked = .ok m := empty.extend_named (by decide)
  obtain ⟨n, hn, halphabet, h⟩ := determinize_renamed (Equiv.swap "q" "s") negativeCode
    (Equiv.injective _) negativeCode_injective forked m hm
  have hds : (build forked).toOption.bind (fun m => (m.determinize {}).result.toOption.map
      fun d => (m.alphabet, d.states.map State.name)) =
        some (['a', 'b'], ["[p]", "[q, r]", "[]"]) := by decide +kernel
  have hes : (build (forked.map (Declaration.rename (Equiv.swap "q" "s")
      (Label.map negativeCode)))).toOption.bind (fun n => (n.determinize {}).result.toOption.map
        fun e => e.states.map State.name) = some ["[p]", "[r, s]", "[]"] := by decide +kernel
  rw [hm, Except.toOption, Option.bind_some] at hds
  rw [hn, Except.toOption, Option.bind_some] at hes
  rcases h {} with ⟨error, hrefused, _⟩ | ⟨d, e, hd, he, hrenamed⟩
  · rw [hrefused] at hds
    cases hds
  · rw [hd] at hds
    rw [he] at hes
    obtain ⟨hletters, hnames⟩ := Prod.mk.inj (Option.some.inj hds)
    rw [hletters] at halphabet
    exact ⟨m, n, d, e, hm, hn, hletters, halphabet, hd, he, hnames, Option.some.inj hes, hrenamed⟩

end NFA

end Automata
