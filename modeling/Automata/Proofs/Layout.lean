import Automata.Proofs.BreadthFirst
import Automata.Proofs.Course
import Automata.Proofs.Independence

namespace Automata

variable {α : Type}

namespace DFA.BreadthFirst

variable {d : DFA α} (h : d.BreadthFirst)
include h

/-- The handle of an edge gives its source by division and its letter by remainder. -/
theorem edge_at {k : Nat} (hk : k < d.size * d.alphabet.length) :
    ∃ e, d.edges[k]? = some e ∧ e.source = k / d.alphabet.length ∧
      d.alphabet[k % d.alphabet.length]? = some e.label := by
  have hkey := congrArg (·[k]?) h.keys_eq
  simp only [List.getElem?_map, Array.getElem?_toList] at hkey
  rw [Construction.layout_getElem? hk] at hkey
  obtain ⟨e, he⟩ : ∃ e, d.edges[k]? = some e :=
    ⟨_, Array.getElem?_eq_getElem (h.edges_size ▸ hk)⟩
  rw [he] at hkey
  obtain ⟨a, ha, hpair⟩ := Option.map_eq_some_iff.mp hkey.symm
  obtain ⟨hsource, rfl⟩ := key_eq_iff.mp hpair.symm
  exact ⟨e, he, hsource, ha⟩

theorem existsUnique_edge {i : Nat} {a : α} (hi : i < d.size) (ha : a ∈ d.alphabet) :
    ∃! e, e ∈ d.edges ∧ e.source = i ∧ e.label = a :=
  existsUnique_edge_of_key (h.key_mem hi ha)

variable [DecidableEq α]

theorem isComplete : d.isComplete = true := by
  rw [DFA.isComplete, gap?_eq_none_iff.mpr fun i hi a ha => h.exists_target hi ha]
  rfl

end DFA.BreadthFirst

variable [DecidableEq α]

namespace Construction

variable {n : NFA α}

/-- An edge that is drawn replaces none, and was not there before. -/
theorem Drawable.addEdge {c : Construction n} {source target : Nat} {a : α}
    (h : Drawable c source a target) :
    ∃ dfa, c.dfa.addEdge source a target = .ok (dfa, c.dfa.edges.size) ∧
      dfa.edges = c.dfa.edges.push ⟨source, a, target⟩ := by
  obtain ⟨dfa, hadd, hedges, _⟩ :=
    DFA.addEdge_fresh h.source_lt h.target_lt h.fresh h.label_mem
  exact ⟨dfa, hadd, hedges⟩

end Construction

namespace NFA

theorem course_of_determinize {n : NFA α} {settings : Settings} {d : DFA α}
    (h : (n.determinize settings).result = .ok d) :
    ∃ taken c, Construction.Course (n := n) settings taken (.head c) ∧ c.pending = [] ∧
      c.dfa = d := by
  obtain ⟨c, hr, rfl⟩ := run_of_determinize h
  obtain ⟨taken, c', hcourse, hp, hfinish⟩ := Construction.course_of_run hr
  exact ⟨taken, c', hcourse, hp, (Construction.finish_same hfinish).dfa.symm⟩

/-- The result has the letters of the automaton, and one edge for each state and letter, in the
order of states and then of letters. It is what the conversion has drawn at its last moment, and
whenever an edge is drawn it goes to the end and is a new one. -/
theorem determinize_edge_layout (n : NFA α) (settings : Settings) (d : DFA α)
    (h : (n.determinize settings).result = .ok d) :
    d.alphabet = n.alphabet ∧
    d.edges.size = d.size * n.alphabet.length ∧
    (∀ k < d.size * n.alphabet.length, ∃ e, d.edges[k]? = some e ∧
      e.source = k / n.alphabet.length ∧
      n.alphabet[k % n.alphabet.length]? = some e.label) ∧
    (∀ i < d.size, ∀ a ∈ n.alphabet, ∃! e, e ∈ d.edges ∧ e.source = i ∧ e.label = a) ∧
    d.isComplete = true ∧
    (∃ taken c, Construction.Course (n := n) settings taken (.head c) ∧ c.pending = [] ∧
      c.dfa = d) ∧
    ∀ taken (c : Construction n) s source a target letters,
      Construction.Course settings taken (.drawing c s source a target letters) →
      ∃ dfa, c.dfa.addEdge source a target = .ok (dfa, c.dfa.edges.size) ∧
        dfa.edges = c.dfa.edges.push ⟨source, a, target⟩ := by
  have hcourse := course_of_determinize h
  obtain ⟨c, hc, rfl⟩ := finished_of_determinize h
  have hb := hc.breadthFirst
  rw [← hc.alphabet]
  exact ⟨rfl, hb.edges_size, fun k => hb.edge_at, fun i hi a => hb.existsUnique_edge hi,
    hb.isComplete, hcourse, fun _ _ _ _ _ _ _ hm => hm.invariant.drawable.addEdge⟩

/-- Three states and two letters, and the fourth edge is that of the state in the middle for the
second letter. -/
theorem determinize_edge_layout_lasso :
    ∃ d, (lasso.determinize {}).result = .ok d ∧ d.edges.size = 6 ∧
      ∃ e, d.edges[3]? = some e ∧ e.source = 1 ∧ e.label = 'b' := by
  obtain ⟨d, h⟩ := lasso_determinize
  obtain ⟨_, hsize, hedge, _⟩ := determinize_edge_layout lasso {} d h
  have halphabet : lasso.alphabet = ['a', 'b'] := by decide +kernel
  rw [lasso_size h, halphabet] at hsize hedge
  obtain ⟨e, he, hsource, hlabel⟩ := hedge 3 (by decide)
  exact ⟨d, h, hsize, e, he, hsource, (Option.some.inj hlabel).symm⟩

end NFA

end Automata
