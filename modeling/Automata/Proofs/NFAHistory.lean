import Automata.Proofs.History

namespace Automata.NFA

variable {α : Type} [DecidableEq α] {n n' : NFA α}

theorem withLetter_eq {alphabet : List α} (h : alphabet.Nodup) (label : Label α) :
    withLetter alphabet label = (alphabet ++ label.letter?.toList).eraseDups := by
  cases label with
  | epsilon => simp [withLetter, Label.letter?, eraseDups_of_nodup h]
  | symbol a => exact (eraseDups_concat h a).symm

/-- One edge is asked for: it is there once, and its letter is known. -/
structure Added (e : Edge (Label α)) (n n' : NFA α) (k : Nat) : Prop where
  roster : n'.roster = n.roster
  start : n'.start = n.start
  edges : n'.edges.toList = (n.edges.toList ++ [e]).eraseDups
  alphabet : n'.alphabet = (n.alphabet ++ e.label.letter?.toList).eraseDups
  handle : n'.edges[k]? = some e

theorem Added.present {e : Edge (Label α)} {k : Nat} (h : n.edges[k]? = some e) :
    Added e n n k where
  roster := rfl
  start := rfl
  edges := by
    rw [eraseDups_concat n.edges_nodup,
      if_pos (Array.mem_toList_iff.mpr (Array.mem_of_getElem? h))]
  alphabet := by
    rw [← withLetter_eq n.alphabet_nodup]
    cases hl : e.label with
    | epsilon => rfl
    | symbol a => exact (if_pos ((n.mem_alphabet a).mpr ⟨e, Array.mem_of_getElem? h, hl⟩)).symm
  handle := h

theorem Added.push {e : Edge (Label α)} {hs : e.source < n.size} {ht : e.target < n.size}
    {fresh : e ∉ n.edges} : Added e n (n.pushEdge e hs ht fresh) n.edges.size where
  roster := rfl
  start := rfl
  edges := by
    rw [eraseDups_concat n.edges_nodup, if_neg fun he => fresh (Array.mem_toList_iff.mp he)]
    exact Array.toList_push
  alphabet := withLetter_eq n.alphabet_nodup e.label
  handle := Array.getElem?_push_size

/-- An edge that is added has a handle from then on, a new one or the one it had. -/
theorem addEdge_ok {i j k : Nat} {label : Label α} (h : n.addEdge i label j = .ok (n', k)) :
    Added ⟨i, label, j⟩ n n' k := by
  simp only [addEdge] at h
  split at h
  · rename_i l hl
    obtain ⟨hlt, hedge, _⟩ := Array.findIdx?_eq_some_iff_getElem.mp hl
    cases h
    apply Added.present
    rw [Array.getElem?_eq_getElem hlt]
    simpa using hedge
  · split at h
    · cases h
      exact .push
    · cases h

/-- Edges and letters are listed where they are asked for first. -/
def record (c : List (Edge (Label α)) × List α) (e : Edge (Label α)) :
    List (Edge (Label α)) × List α :=
  ((c.1 ++ [e]).eraseDups, (c.2 ++ e.label.letter?.toList).eraseDups)

/-- To record edges one by one is to drop the repetitions. -/
theorem foldl_record (edges : List (Edge (Label α))) (es : List (Edge (Label α))) (as : List α) :
    edges.foldl record (es.eraseDups, as.eraseDups) =
      ((es ++ edges).eraseDups, (as ++ (edges.map Edge.label).filterMap Label.letter?).eraseDups) := by
  induction edges generalizing es as with
  | nil => simp
  | cons e edges ih =>
    have hfirst : record (es.eraseDups, as.eraseDups) e =
        ((es ++ [e]).eraseDups, (as ++ e.label.letter?.toList).eraseDups) := by
      simp only [record, eraseDups_append_eraseDups]
    have hletters : (((e :: edges).map Edge.label).filterMap Label.letter?) =
        e.label.letter?.toList ++ (edges.map Edge.label).filterMap Label.letter? := by
      cases hl : e.label.letter? <;> simp [hl]
    rw [List.foldl_cons, hfirst, ih, hletters, List.append_assoc, List.append_assoc,
      List.singleton_append]

/-- Everything about an automaton is seen in its diagram, its edges and its letters. -/
def view : (builder (α := α)).View (List (Edge (Label α)) × List α) where
  diagram := toDiagram
  content n := (n.edges.toList, n.alphabet)
  write := record
  addState h := by
    cases h
    exact ⟨rfl, rfl, rfl⟩
  setStart h := by
    obtain ⟨hi, rfl⟩ := eq_of_guard h
    exact ⟨⟨hi, rfl⟩, rfl⟩
  setFinal h := by
    obtain ⟨hi, rfl⟩ := eq_of_guard h
    exact ⟨hi, rfl, rfl⟩
  addEdge h := by
    have hadded := addEdge_ok h
    exact ⟨hadded.roster, hadded.start, Prod.ext hadded.edges hadded.alphabet, hadded.handle⟩

structure History (ds : List (Declaration (Label α))) (base n : NFA α) : Prop
    extends Diagram.History ds base.toDiagram n.toDiagram where
  edges : n.edges.toList =
    (base.edges.toList ++ ds.filterMap (Declaration.edge? n.roster.names)).eraseDups
  alphabet : n.alphabet =
    (base.alphabet ++ (ds.filterMap Declaration.label?).filterMap Label.letter?).eraseDups

theorem extend_history {ds : List (Declaration (Label α))} {base : NFA α}
    (h : base.extend ds = .ok n) : History ds base n := by
  have hds := view.extend_history h
  have hfold := foldl_record (ds.filterMap (Declaration.edge? n.roster.names)) base.edges.toList
    base.alphabet
  rw [eraseDups_of_nodup base.edges_nodup, eraseDups_of_nodup base.alphabet_nodup,
    Declaration.map_label] at hfold
  have hcontent := hds.content.trans hfold
  exact ⟨hds.toHistory, congrArg Prod.fst hcontent, congrArg Prod.snd hcontent⟩

/-- An edge that is there stays at its place. -/
theorem History.edge_stays {ds : List (Declaration (Label α))} {base : NFA α}
    (h : History ds base n) {k : Nat} {e : Edge (Label α)} (hk : base.edges[k]? = some e) :
    n.edges[k]? = some e := by
  obtain ⟨rest, hrest⟩ := prefix_eraseDups_append base.edges_nodup
    (ds.filterMap (Declaration.edge? n.roster.names))
  rw [← h.edges] at hrest
  obtain ⟨hlt, _⟩ := Array.getElem?_eq_some_iff.mp hk
  rw [← Array.getElem?_toList, ← hrest, List.getElem?_append_left (by simpa using hlt),
    Array.getElem?_toList, hk]

omit [DecidableEq α] in
theorem isFinal_empty (i : Nat) : (empty : NFA α).isFinal i = false := by
  simp [empty, Diagram.empty, Diagram.isFinal, Diagram.state?, Roster.empty, Roster.state?]

/-- An automaton is what its declarations say: its states are those whose names they mention, in
the order of first mention, with the marks and the latest start that they give, and its edges and
letters are those that they ask for, each once and in the order of the first request. The handle
that answers a request for an edge stands for that edge from then on. -/
theorem build_is_history (ds : List (Declaration (Label α))) (n : NFA α) (h : build ds = .ok n) :
    n.roster.names = (ds.flatMap Declaration.mentioned).eraseDups ∧
    (∀ name i, n.index? name = some i ↔ n.roster.names[i]? = some name) ∧
    (∀ i, n.isFinal i = true ↔ i ∈ ds.filterMap (Declaration.final? n.roster.names)) ∧
    n.start = (ds.filterMap (Declaration.start? n.roster.names)).getLast? ∧
    n.edges.toList = (ds.filterMap (Declaration.edge? n.roster.names)).eraseDups ∧
    n.alphabet = ((ds.filterMap Declaration.label?).filterMap Label.letter?).eraseDups ∧
    (∀ a, a ∈ n.alphabet ↔ ∃ e ∈ n.edges, e.label = .symbol a) ∧
    ∀ before x after e, ds = before ++ x :: after → x.edge? n.roster.names = some e →
      ∃ m m' k, build before = .ok m ∧ m.declare x = .ok (m', k) ∧ m'.extend after = .ok n ∧
        m'.edges[k]? = some e ∧ n.edges[k]? = some e := by
  have hds := extend_history h
  refine ⟨hds.names, fun name i => Roster.index?_eq_some_iff, ?_, ?_, hds.edges, hds.alphabet,
    n.mem_alphabet, ?_⟩
  · intro i
    rw [hds.final]
    simp [isFinal_empty]
  · rw [hds.start]
    exact Option.or_none
  · intro before x after e hsplit he
    obtain ⟨m, m', k, hbefore, hx, hafter⟩ := Builder.extend_split.mp (hsplit ▸ h)
    have hdeclared := view.declare_ok hx
    have hrest := extend_history hafter
    rw [Declaration.edge?_of_prefix hdeclared.mem_names hrest.names_prefix] at he
    have hk := hdeclared.handle e he
    exact ⟨m, m', k, hbefore, hx, hafter, hk, hrest.edge_stays hk⟩

/-- A history in which an edge and a name come twice and the start is moved. -/
def stutter : List (Declaration (Label Char)) :=
  [.startState "q", .transition "p" (.symbol 'b') "q", .transition "q" .epsilon "p",
    .edge 1 (.symbol 'b') 0, .edge 0 (.symbol 'a') 0, .finalState "p", .start 1]

/-- Declarations that repeat themselves are counted once. -/
theorem build_is_history_stutter :
    ∃ n, build stutter = .ok n ∧ n.roster.names = ["q", "p"] ∧ n.start = some 1 ∧
      n.edges.toList = [⟨1, .symbol 'b', 0⟩, ⟨0, .epsilon, 1⟩, ⟨0, .symbol 'a', 0⟩] ∧
      n.alphabet = ['b', 'a'] ∧ (∀ i, n.isFinal i = true ↔ i = 1) := by
  have hok : (build stutter).isOk := by decide +kernel
  cases h : build stutter with
  | error fault =>
    rw [h] at hok
    cases hok
  | ok n =>
    obtain ⟨hnames, _, hfinal, hstart, hedges, halphabet, _⟩ := build_is_history stutter n h
    have hnames : n.roster.names = ["q", "p"] := hnames
    rw [hnames] at hfinal hstart hedges
    refine ⟨n, rfl, hnames, hstart, hedges, halphabet, ?_⟩
    intro i
    rw [hfinal]
    exact List.mem_singleton

end Automata.NFA
