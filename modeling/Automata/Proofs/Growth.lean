import Automata.Proofs.DeclarationOrder
import Automata.Table.Basic

namespace Automata

/-- A roster is determined by its names and marks. -/
theorem Roster.eq_of_names {r r' : Roster} (names : r.names = r'.names)
    (marks : ∀ i, (r.state? i).any State.accepting = (r'.state? i).any State.accepting) : r = r' := by
  refine Roster.ext (Array.ext_getElem? fun i => ?_)
  have hname : (r.state? i).map State.name = (r'.state? i).map State.name := by
    rw [← names_getElem?, ← names_getElem?, names]
  have hmark := marks i
  change r.state? i = r'.state? i
  cases hs : r.state? i with
  | none =>
    rw [hs] at hname
    exact (Option.map_eq_none_iff.mp hname.symm).symm
  | some s =>
    rw [hs] at hname hmark
    obtain ⟨t, ht, hts⟩ := Option.map_eq_some_iff.mp hname.symm
    rw [ht] at hmark ⊢
    obtain ⟨name, accepting⟩ := s
    obtain ⟨name', accepting'⟩ := t
    simp only [Option.any_some] at hts hmark
    rw [hts, hmark]

theorem Declaration.start?_eq_none {ℓ : Type} {x : Declaration ℓ} (hx : x.isStart = false)
    (names : List String) : x.start? names = none := by
  rw [← Option.not_isSome_iff_eq_none, isSome_start?, hx]
  exact Bool.false_ne_true

namespace NFA

variable {α : Type} {m n : NFA α}

theorem eq_of_parts (roster : m.roster = n.roster) (start : m.start = n.start)
    (edges : m.edges = n.edges) (alphabet : m.alphabet = n.alphabet) : m = n := by
  obtain ⟨⟨_, _, _, _, _⟩, _, _, _, _⟩ := m
  obtain ⟨⟨_, _, _, _, _⟩, _, _, _, _⟩ := n
  simp only at roster start edges alphabet
  subst roster start edges alphabet
  rfl

/-- One automaton is a part of another, with the same handles and the same start. -/
structure PartOf (m n : NFA α) : Prop where
  start : n.start = m.start
  edges : ∀ e ∈ m.edges, e ∈ n.edges
  final : ∀ i, m.isFinal i = true → n.isFinal i = true

theorem PartOf.path {i j : Nat} {labels : List (Label α)} (h : PartOf m n)
    (hp : m.Path i labels j) : n.Path i labels j := by
  induction hp with
  | nil i => exact .nil i
  | cons he _ ih => exact .cons (h.edges _ he) ih

theorem PartOf.reached_subset (h : PartOf m n) (word : List α) : m.reached word ⊆ n.reached word := by
  intro j hj
  obtain ⟨i, hi, labels, hp, hw⟩ := hj
  exact ⟨i, h.start.trans hi, labels, h.path hp, hw⟩

/-- What a declaration asks for is there already. -/
structure Says (n : NFA α) (x : Declaration (Label α)) : Prop where
  names : ∀ name ∈ x.mentioned, name ∈ n.roster.names
  start : ∀ i, x.start? n.roster.names = some i → n.start = some i
  final : ∀ i, x.final? n.roster.names = some i → n.isFinal i = true
  edge : ∀ e, x.edge? n.roster.names = some e → e ∈ n.edges

variable [DecidableEq α]

theorem PartOf.accepts (h : PartOf m n) {word : List α} (hw : m.accepts word = true) :
    n.accepts word = true := by
  obtain ⟨j, hj, hfinal⟩ := accepts_iff_reached.mp hw
  exact accepts_iff_reached.mpr ⟨j, h.reached_subset word hj, h.final j hfinal⟩

variable {ds : List (Declaration (Label α))}

/-- Without a new start the automaton as it was is a part of what it becomes. -/
theorem History.partOf (h : History ds m n) (unstarted : ∀ x ∈ ds, x.isStart = false) :
    PartOf m n where
  start := by
    have hnone : ds.filterMap (Declaration.start? n.roster.names) = [] :=
      List.filterMap_eq_nil_iff.mpr fun x hx => Declaration.start?_eq_none (unstarted x hx) _
    rw [h.start, hnone]
    rfl
  edges e he := by
    rw [← Array.mem_toList_iff, h.edges, List.mem_eraseDups]
    exact List.mem_append_left _ (Array.mem_toList_iff.mpr he)
  final i hi := (h.final i).mpr (.inl hi)

/-- What was declared is said from then on, unless it was a start. -/
theorem History.said {x : Declaration (Label α)} (h : History ds m n) (hx : x ∈ ds)
    (unstarted : x.isStart = false) : n.Says x where
  names := h.mem_names hx
  start i hi := by
    rw [Declaration.start?_eq_none unstarted] at hi
    cases hi
  final i hi := (h.final i).mpr (.inr (List.mem_filterMap.mpr ⟨x, hx, hi⟩))
  edge e he := by
    rw [← Array.mem_toList_iff, h.edges, List.mem_eraseDups]
    exact List.mem_append_right _ (List.mem_filterMap.mpr ⟨x, hx, he⟩)

/-- Declarations of what is said already leave an automaton as it is. -/
theorem History.eq_of_said (h : History ds m n) (said : ∀ x ∈ ds, m.Says x) : n = m := by
  have hnames : n.roster.names = m.roster.names := by
    rw [h.names]
    apply eraseDups_append_of_subset m.roster.names_nodup
    intro name hname
    obtain ⟨x, hx, hname⟩ := List.mem_flatMap.mp hname
    exact (said x hx).names name hname
  have hedges : ds.filterMap (Declaration.edge? m.roster.names) ⊆ m.edges.toList := by
    intro e he
    obtain ⟨x, hx, he⟩ := List.mem_filterMap.mp he
    exact Array.mem_toList_iff.mpr ((said x hx).edge e he)
  apply eq_of_parts
  · apply Roster.eq_of_names hnames
    intro i
    apply Bool.eq_iff_iff.mpr
    refine (h.final i).trans (or_iff_left_of_imp ?_)
    intro hi
    obtain ⟨x, hx, hi⟩ := List.mem_filterMap.mp hi
    exact (said x hx).final i (hnames ▸ hi)
  · rw [h.start, hnames]
    cases hlast : (ds.filterMap (Declaration.start? m.roster.names)).getLast? with
    | none => rfl
    | some i =>
      obtain ⟨x, hx, hi⟩ := List.mem_filterMap.mp (List.mem_of_getLast? hlast)
      exact ((said x hx).start i hi).symm
  · apply Array.toList_inj.mp
    rw [h.edges, hnames, eraseDups_append_of_subset m.edges_nodup hedges]
  · rw [h.alphabet]
    apply eraseDups_append_of_subset m.alphabet_nodup
    intro a ha
    obtain ⟨label, hlabel, ha⟩ := List.mem_filterMap.mp ha
    obtain ⟨x, hx, hlabel⟩ := List.mem_filterMap.mp hlabel
    rw [x.label?_eq m.roster.names] at hlabel
    obtain ⟨e, he, rfl⟩ := Option.map_eq_some_iff.mp hlabel
    exact (m.mem_alphabet a).mpr ⟨e, (said x hx).edge e he, Label.letter?_eq_some_iff.mp ha⟩

theorem determinize_unlimited (hstart : n.start ≠ none) :
    ∃ d, (n.determinize {}).result = .ok d ∧ ∀ word, d.accepts word = n.accepts word := by
  obtain ⟨d, hd, _⟩ := n.determinize_within {} hstart (by simp)
  obtain ⟨c, hc, rfl⟩ := finished_of_determinize hd
  exact ⟨c.dfa, hd, hc.accepts⟩

/-- Words stay accepted when more is declared, but for a new start, and so they do when both
automata are converted. Where every declaration repeats what the automaton says, and it says all
that it was built from, nothing changes at all. -/
theorem extend_monotone (n m : NFA α) (ds : List (Declaration (Label α)))
    (h : n.extend ds = .ok m) (unstarted : ∀ x ∈ ds, x.isStart = false) :
    (∀ word, n.accepts word = true → m.accepts word = true) ∧
    (n.start ≠ none → ∃ d e, (n.determinize {}).result = .ok d ∧
      (m.determinize {}).result = .ok e ∧ ∀ word, d.accepts word = true → e.accepts word = true) ∧
    ((∀ x ∈ ds, n.Says x) → (∀ word, m.accepts word = n.accepts word) ∧
      (n.start ≠ none → ∃ d e, (n.determinize {}).result = .ok d ∧
        (m.determinize {}).result = .ok e ∧ d.table = e.table)) ∧
    (∀ before, build before = .ok n → ∀ x ∈ before, x.isStart = false → n.Says x) := by
  have hds := extend_history h
  have hpart := hds.partOf unstarted
  refine ⟨fun word => hpart.accepts, ?_, ?_, ?_⟩
  · intro hstart
    obtain ⟨d, hd, hlanguage⟩ := determinize_unlimited hstart
    obtain ⟨e, he, hlanguage'⟩ := determinize_unlimited (hpart.start ▸ hstart)
    refine ⟨d, e, hd, he, ?_⟩
    intro word hw
    rw [hlanguage] at hw
    rw [hlanguage']
    exact hpart.accepts hw
  · intro said
    obtain rfl := hds.eq_of_said said
    refine ⟨fun _ => rfl, ?_⟩
    intro hstart
    obtain ⟨d, hd, _⟩ := determinize_unlimited hstart
    exact ⟨d, d, hd, hd, rfl⟩
  · intro before hbefore x hx
    exact (extend_history hbefore).said hx

def widening : List (Declaration (Label Char)) :=
  [.final 1, .transition "s" (.symbol 'c') "t", .edge 1 .epsilon 2]

/-- The fork grows by a longer list of declarations, and keeps to itself under three of its own. -/
theorem extend_monotone_forked :
    ∃ n m k, build forked = .ok n ∧ n.extend widening = .ok m ∧
      n.extend [.state "s", .finalState "r", .transition "r" .epsilon "q"] = .ok k ∧
      (∀ word, n.accepts word = true → m.accepts word = true) ∧
      n.accepts ['a', 'b', 'a'] = true ∧ m.accepts ['a', 'b', 'a'] = true ∧
      (∀ word, k.accepts word = n.accepts word) ∧
      ∃ d e, (n.determinize {}).result = .ok d ∧ (k.determinize {}).result = .ok e ∧
        d.table = e.table := by
  obtain ⟨n, hn⟩ : ∃ n, build forked = .ok n := empty.extend_named (by decide)
  obtain ⟨k, hk⟩ : ∃ k, n.extend [.state "s", .finalState "r", .transition "r" .epsilon "q"] =
      .ok k := n.extend_named (by decide)
  have haccepts : (build forked).toOption.any fun n =>
      n.accepts ['a', 'b', 'a'] && n.start.isSome && (n.extend widening).isOk := by decide +kernel
  rw [hn] at haccepts
  simp only [Except.toOption, Option.any_some, Bool.and_eq_true] at haccepts
  obtain ⟨⟨hword, hstart⟩, hok⟩ := haccepts
  have hstart : n.start ≠ none := Option.isSome_iff_ne_none.mp hstart
  cases hm : n.extend widening with
  | error fault =>
    rw [hm] at hok
    cases hok
  | ok m =>
    obtain ⟨hmono, _⟩ := extend_monotone n m widening hm (by decide)
    obtain ⟨_, _, hrepeat, hsaid⟩ := extend_monotone n k _ hk (by decide)
    have hown : ∀ x ∈ [Declaration.state "s", .finalState "r", .transition "r" .epsilon "q"],
        x ∈ forked ∧ x.isStart = false := by decide
    obtain ⟨hsame, htable⟩ := hrepeat fun x hx => hsaid forked hn x (hown x hx).1 (hown x hx).2
    exact ⟨n, m, k, hn, hm, hk, hmono, hword, hmono _ hword, hsame, htable hstart⟩

end NFA

end Automata
