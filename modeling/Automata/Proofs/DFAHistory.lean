import Automata.Proofs.History
import Automata.Proofs.Subsets

namespace Automata.DFA

variable {α : Type}

/-- Where the latest of several edges with a source and a letter leads. -/
def latest [DecidableEq α] (edges : List (Edge α)) (i : Nat) (a : α) : Option Nat :=
  (edges.filter (leaves i a)).getLast?.map Edge.target

variable {d d' : DFA α}

/-- The removal of an edge leaves the edges with other keys. -/
theorem mem_dropEdge {k : Nat} {hk : k < d.edges.size} {e : Edge α} :
    e ∈ (d.dropEdge k hk).edges ↔ e ∈ d.edges ∧ e.key ≠ d.edges[k].key := by
  constructor
  · intro he
    refine ⟨mem_swapErase he, fun hkey => d.key_dropEdge k hk ?_⟩
    exact hkey ▸ List.mem_map_of_mem (Array.mem_toList_iff.mpr he)
  · intro h
    obtain ⟨he, hkey⟩ := h
    have hmem := (swapErase_perm d.edges k hk).mem_iff.mpr (Array.mem_toList_iff.mpr he)
    rcases List.mem_cons.mp hmem with rfl | hmem
    · exact absurd rfl hkey
    · exact Array.mem_toList_iff.mp hmem

variable [DecidableEq α]

/-- One edge is written: it takes the place of the edge with its source and letter. -/
structure Written (e : Edge α) (d d' : DFA α) (k : Nat) : Prop where
  roster : d'.roster = d.roster
  start : d'.start = d.start
  alphabet : d'.alphabet = (d.alphabet ++ [e.label]).eraseDups
  edges : ∀ f, f ∈ d'.edges ↔ f = e ∨ f ∈ d.edges ∧ f.key ≠ e.key
  handle : d'.edges[k]? = some e

/-- To write an edge that is there changes nothing. -/
theorem Written.present {e : Edge α} {k : Nat} (h : d.edges[k]? = some e) : Written e d d k where
  roster := rfl
  start := rfl
  alphabet := by
    rw [eraseDups_concat d.alphabet_nodup, if_pos (d.label_mem e (Array.mem_of_getElem? h))]
  edges f := by
    have he := Array.mem_of_getElem? h
    constructor
    · intro hf
      by_cases hkey : f.key = e.key
      · exact .inl (eq_of_key_eq hf he hkey)
      · exact .inr ⟨hf, hkey⟩
    · rintro (rfl | ⟨hf, _⟩)
      · exact he
      · exact hf
  handle := h

/-- An edge whose key no edge has goes to the end. -/
theorem Written.push {e : Edge α} {hs : e.source < d.size} {ht : e.target < d.size}
    {fresh : e.key ∉ d.edges.toList.map Edge.key} :
    Written e d (d.pushEdge e hs ht fresh) d.edges.size where
  roster := rfl
  start := rfl
  alphabet := (eraseDups_concat d.alphabet_nodup e.label).symm
  edges f := by
    change f ∈ d.edges.push e ↔ _
    rw [Array.mem_push, or_comm]
    refine or_congr_right ⟨fun hf => ⟨hf, fun hkey => fresh ?_⟩, And.left⟩
    exact hkey ▸ List.mem_map_of_mem (Array.mem_toList_iff.mpr hf)
  handle := Array.getElem?_push_size

/-- The edge in whose place another one is written can be taken out before. -/
theorem Written.of_dropEdge {e : Edge α} {k l : Nat} {hk : k < d.edges.size}
    (h : Written e (d.dropEdge k hk) d' l) (hkey : d.edges[k].key = e.key) : Written e d d' l where
  roster := h.roster
  start := h.start
  alphabet := h.alphabet
  edges f := by rw [h.edges, mem_dropEdge, hkey, and_assoc, and_self]
  handle := h.handle

/-- An edge takes the place of the one that leaves its source by its letter. -/
theorem addEdge_ok {i t k : Nat} {a : α} (h : d.addEdge i a t = .ok (d', k)) :
    Written ⟨i, a, t⟩ d d' k := by
  simp only [addEdge] at h
  split at h
  · rename_i l hl
    obtain ⟨hlt, hleaves, _⟩ := Array.findIdx?_eq_some_iff_getElem.mp hl
    have hkey : d.edges[l].key = (i, a) := leaves_iff.mp hleaves
    split at h
    · rename_i htarget
      cases h
      apply Written.present
      obtain ⟨hsource, hlabel⟩ := key_eq_iff.mp hkey
      rw [Array.getElem?_eq_getElem hlt, ← hsource, ← hlabel, ← htarget]
    · split at h
      · cases h
        exact Written.push.of_dropEdge hkey
      · cases h
  · split at h
    · cases h
      exact .push
    · cases h

/-- What was written is read back for its source and letter, and the rest is as before. -/
theorem Written.target? {e : Edge α} {k : Nat} (h : Written e d d' k) (i : Nat) (a : α) :
    d'.target? i a = if leaves i a e then some e.target else d.target? i a := by
  apply Option.ext
  intro t
  rw [target?_eq_some_iff, h.edges]
  split
  · rename_i hleaves
    have hkey := leaves_iff.mp hleaves
    obtain ⟨rfl, rfl⟩ := key_eq_iff.mp hkey
    constructor
    · rintro (he | ⟨_, hne⟩)
      · rw [← he]
      · exact absurd rfl hne
    · intro ht
      exact .inl (by rw [← Option.some.inj ht])
  · rename_i hleaves
    have hne : (i, a) ≠ e.key := fun hkey => hleaves (leaves_iff.mpr hkey.symm)
    rw [target?_eq_some_iff]
    constructor
    · rintro (he | ⟨hf, _⟩)
      · exact absurd (congrArg Edge.key he) hne
      · exact hf
    · exact fun hf => .inr ⟨hf, hne⟩

theorem latest_append (edges more : List (Edge α)) (i : Nat) (a : α) :
    latest (edges ++ more) i a = (latest more i a).or (latest edges i a) := by
  simp only [latest, List.filter_append, List.getLast?_append, Option.map_or]

/-- No edge is later than another one with its key. -/
theorem latest_edges (d : DFA α) : latest d.edges.toList = d.target? := by
  funext i a
  apply Option.ext
  intro t
  rw [target?_eq_some_iff, latest, Option.map_eq_some_iff]
  constructor
  · rintro ⟨e, he, rfl⟩
    obtain ⟨hmem, hleaves⟩ := List.mem_filter.mp (List.mem_of_getLast? he)
    obtain ⟨rfl, rfl⟩ := key_eq_iff.mp (leaves_iff.mp hleaves)
    exact Array.mem_toList_iff.mp hmem
  · intro h
    have hmem : ⟨i, a, t⟩ ∈ d.edges.toList.filter (leaves i a) :=
      List.mem_filter.mpr ⟨Array.mem_toList_iff.mpr h, leaves_iff.mpr rfl⟩
    have hne := List.ne_nil_of_mem hmem
    refine ⟨_, List.getLast?_eq_some_getLast hne, ?_⟩
    obtain ⟨hlast, hleaves⟩ := List.mem_filter.mp (List.getLast_mem hne)
    have hkey := leaves_iff.mp hleaves
    rw [eq_of_key_eq (Array.mem_toList_iff.mp hlast) h hkey]

/-- A state and a letter lead where the edge that is written last leads. -/
def record (c : (Nat → α → Option Nat) × List α) (e : Edge α) : (Nat → α → Option Nat) × List α :=
  (fun i a => if leaves i a e then some e.target else c.1 i a, (c.2 ++ [e.label]).eraseDups)

/-- To record edges one by one is to keep the latest for each source and letter. -/
theorem foldl_record (edges es : List (Edge α)) (as : List α) :
    edges.foldl record (latest es, as.eraseDups) =
      (latest (es ++ edges), (as ++ edges.map Edge.label).eraseDups) := by
  induction edges generalizing es as with
  | nil => simp
  | cons e edges ih =>
    have hfirst : record (latest es, as.eraseDups) e =
        (latest (es ++ [e]), (as ++ [e.label]).eraseDups) := by
      refine Prod.ext (funext fun i => funext fun a => ?_) (eraseDups_append_eraseDups as _)
      change (if leaves i a e then some e.target else latest es i a) = latest (es ++ [e]) i a
      rw [latest_append]
      by_cases hl : leaves i a e <;> simp [latest, hl]
    rw [List.foldl_cons, hfirst, ih, List.append_assoc, List.append_assoc, List.singleton_append,
      List.singleton_append, List.map_cons]

/-- Everything about an automaton is seen in its diagram, its targets and its letters. -/
def view : (builder (α := α)).View ((Nat → α → Option Nat) × List α) where
  diagram := toDiagram
  content d := (d.target?, d.alphabet)
  write := record
  addState h := by
    cases h
    exact ⟨rfl, rfl, rfl⟩
  setStart h := by
    obtain ⟨hi, rfl⟩ := eq_of_guard h
    exact ⟨⟨hi, rfl⟩, rfl⟩
  setFinal h := by
    obtain ⟨hi, rfl⟩ := eq_of_guard h
    exact ⟨hi, rfl, rfl⟩
  addEdge h := by
    have hw := addEdge_ok h
    refine ⟨hw.roster, hw.start, Prod.ext ?_ hw.alphabet, hw.handle⟩
    exact funext fun i => funext fun a => hw.target? i a

structure History (ds : List (Declaration α)) (base d : DFA α) : Prop
    extends Diagram.History ds base.toDiagram d.toDiagram where
  target? : ∀ i a, d.target? i a =
    latest (base.edges.toList ++ ds.filterMap (Declaration.edge? d.roster.names)) i a
  alphabet : d.alphabet = (base.alphabet ++ ds.filterMap Declaration.label?).eraseDups

theorem extend_history {ds : List (Declaration α)} {base : DFA α} (h : base.extend ds = .ok d) :
    History ds base d := by
  have hds := view.extend_history h
  have hfold := foldl_record (ds.filterMap (Declaration.edge? d.roster.names)) base.edges.toList
    base.alphabet
  rw [eraseDups_of_nodup base.alphabet_nodup, Declaration.map_label, base.latest_edges] at hfold
  have hcontent := hds.content.trans hfold
  refine ⟨hds.toHistory, fun i a => ?_, congrArg Prod.snd hcontent⟩
  exact congrFun (congrFun (congrArg Prod.fst hcontent) i) a

/-- An automaton that has recorded declarations, with the names, edges and letters that were
there before: an entry is the latest one, and there are no others. -/
structure Recorded (names : List String) (edges : List (Edge α)) (letters : List α)
    (ds : List (Declaration α)) (d : DFA α) : Prop where
  names_eq : d.roster.names = (names ++ ds.flatMap Declaration.mentioned).eraseDups
  index?_iff : ∀ name i, d.index? name = some i ↔ d.roster.names[i]? = some name
  alphabet_eq : d.alphabet = (letters ++ ds.filterMap Declaration.label?).eraseDups
  target?_eq : ∀ i a, d.target? i a =
    latest (edges ++ ds.filterMap (Declaration.edge? d.roster.names)) i a
  keys_distinct : (d.edges.toList.map Edge.key).Nodup
  size_eq : d.edges.size =
    ((edges ++ ds.filterMap (Declaration.edge? d.roster.names)).map Edge.key).toFinset.card

theorem latest_isSome_iff {edges : List (Edge α)} {i : Nat} {a : α} :
    (latest edges i a).isSome ↔ (i, a) ∈ edges.map Edge.key := by
  simp [latest, leaves_iff]

/-- A history leaves behind what its declarations record. -/
theorem History.recorded {ds : List (Declaration α)} {base : DFA α} (h : History ds base d) :
    Recorded base.roster.names base.edges.toList base.alphabet ds d where
  names_eq := h.names
  index?_iff _ _ := Roster.index?_eq_some_iff
  alphabet_eq := h.alphabet
  target?_eq := h.target?
  keys_distinct := d.keys_nodup
  size_eq := by
    have hkeys : (d.edges.toList.map Edge.key).toFinset = ((base.edges.toList ++
        ds.filterMap (Declaration.edge? d.roster.names)).map Edge.key).toFinset := by
      ext ⟨i, a⟩
      rw [List.mem_toFinset, List.mem_toFinset, mem_keys_iff, h.target?, latest_isSome_iff]
    rw [← hkeys, List.toFinset_card_of_nodup d.keys_nodup, List.length_map, Array.length_toList]

/-- The latest declaration for a state and a letter counts, whatever was declared or replaced in
between, and whether the automaton began empty or as another one, such as a conversion's result.
The handle that answers a request for an edge stands for that edge. -/
theorem last_write_wins :
    (∀ (letters : List α) (ds : List (Declaration α)) (d : DFA α),
      build letters ds = .ok d → Recorded [] [] letters ds d) ∧
    (∀ (base d : DFA α) (ds : List (Declaration α)), base.extend ds = .ok d →
      Recorded base.roster.names base.edges.toList base.alphabet ds d) ∧
    ∀ (d d' : DFA α) (x : Declaration α) (k : Nat) (e : Edge α), d.declare x = .ok (d', k) →
      x.edge? d'.roster.names = some e → d'.edges[k]? = some e := by
  refine ⟨?_, fun base d ds h => (extend_history h).recorded, ?_⟩
  · intro letters ds d h
    have hds := (extend_history h).recorded
    refine ⟨hds.names_eq, hds.index?_iff, ?_, hds.target?_eq, hds.keys_distinct, hds.size_eq⟩
    rw [hds.alphabet_eq]
    exact eraseDups_append_eraseDups letters _
  · exact fun d d' x k e h => (view.declare_ok h).handle e

/-- The first edge is replaced when there are others, so the last edge moves to its place. -/
def rewired : List (Declaration Char) :=
  [.transition "p" 'b' "q", .transition "q" 'b' "q", .edge 1 'a' 0, .transition "p" 'b' "p"]

/-- An edge that is declared anew takes the place of the former one. -/
theorem last_write_wins_rewired :
    (∃ d, build ['a'] rewired = .ok d ∧ d.roster.names = ["p", "q"] ∧ d.alphabet = ['a', 'b'] ∧
      d.target? 0 'b' = some 0 ∧ d.target? 1 'b' = some 1 ∧ d.edges.size = 3 ∧
      ∃ d' k, d.declare (.edge 1 'b' 0) = .ok (d', k) ∧ d'.edges[k]? = some ⟨1, 'b', 0⟩) ∧
    ∃ base d, (NFA.lasso.determinize {}).result = .ok base ∧ base.extend rewired = .ok d ∧
      d.target? 1 'a' = some 0 := by
  obtain ⟨hbuild, hextend, hhandle⟩ := last_write_wins (α := Char)
  constructor
  · have hok : ((build ['a'] rewired).bind (·.declare (.edge 1 'b' 0))).isOk := by decide +kernel
    cases hd : build ['a'] rewired with
    | error fault =>
      rw [hd] at hok
      cases hok
    | ok d =>
      rw [hd] at hok
      cases he : d.declare (.edge 1 'b' 0) with
      | error fault =>
        simp only [Except.bind, he] at hok
        cases hok
      | ok r =>
        have h := hbuild ['a'] rewired d hd
        have hnames : d.roster.names = ["p", "q"] := h.names_eq
        have htarget := h.target?_eq
        have hsize := h.size_eq
        rw [hnames] at htarget hsize
        refine ⟨d, rfl, hnames, h.alphabet_eq, htarget 0 'b', htarget 1 'b', hsize, r.1, r.2, he, ?_⟩
        exact hhandle d r.1 _ r.2 _ he rfl
  · have hok : ((NFA.lasso.determinize {}).result.toOption.map (·.extend rewired)).all
        Except.isOk := by decide +kernel
    obtain ⟨base, hbase⟩ := NFA.lasso_determinize
    rw [hbase] at hok
    cases hd : base.extend rewired with
    | error fault =>
      simp [Except.toOption, hd] at hok
      cases hok
    | ok d =>
      refine ⟨base, d, hbase, hd, ?_⟩
      rw [(hextend base d rewired hd).target?_eq, latest_append]
      simp [latest, rewired, Declaration.edge?, leaves]

end Automata.DFA
