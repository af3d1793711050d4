import Automata.Declaration
import Automata.Diagram
import Automata.Repetitions
import Automata.SwapErase

namespace Automata

def Edge.key {α : Type} (e : Edge α) : Nat × α :=
  (e.source, e.label)

structure DFA (α : Type) extends Diagram α where
  alphabet : List α
  keys_nodup : (edges.toList.map Edge.key).Nodup
  alphabet_nodup : alphabet.Nodup
  label_mem : ∀ e ∈ edges, e.label ∈ alphabet

namespace DFA

variable {α : Type}

def addState (d : DFA α) (name : String) : DFA α × Nat :=
  ({ d with toDiagram := (d.toDiagram.addState name).1 }, (d.toDiagram.addState name).2)

def pushState (d : DFA α) (s : State) : Except Fault (DFA α × Nat) :=
  if fresh : d.roster.index? s.name = none then
    .ok ({ d with toDiagram := d.withRoster (d.roster.push s fresh) (by simp [Diagram.size]) },
      d.size)
  else .error (.nameTaken s.name)

def setStart (d : DFA α) (i : Nat) : Except Fault (DFA α) :=
  if h : i < d.size then .ok { d with toDiagram := d.withStart i h }
  else .error (.startOutside .dfa i)

def setFinal (d : DFA α) (i : Nat) : Except Fault (DFA α) :=
  if i < d.size then .ok { d with toDiagram := d.toDiagram.accept i }
  else .error (.stateOutside d.size i)

theorem key_eq_iff {e : Edge α} {i : Nat} {a : α} : e.key = (i, a) ↔ e.source = i ∧ e.label = a :=
  Prod.mk.injEq .. ▸ .rfl

/-- The automaton without one of its edges; the last edge takes its place. -/
def dropEdge (d : DFA α) (k : Nat) (h : k < d.edges.size) : DFA α where
  toDiagram := d.withEdges (swapErase d.edges k h) fun e he => d.ends_lt e (mem_swapErase he)
  alphabet := d.alphabet
  keys_nodup := by
    have hp := (swapErase_perm d.edges k h).map Edge.key
    exact (List.nodup_cons.mp (hp.nodup_iff.mpr d.keys_nodup)).2
  alphabet_nodup := d.alphabet_nodup
  label_mem e he := d.label_mem e (mem_swapErase he)

theorem key_dropEdge (d : DFA α) (k : Nat) (h : k < d.edges.size) :
    d.edges[k].key ∉ (d.dropEdge k h).edges.toList.map Edge.key := by
  have hp := (swapErase_perm d.edges k h).map Edge.key
  exact (List.nodup_cons.mp (hp.nodup_iff.mpr d.keys_nodup)).1

variable [DecidableEq α]

/-- No states yet, and the given letters, each once, in the order of their first mention. -/
def withAlphabet (letters : List α) : DFA α where
  toDiagram := .empty
  alphabet := letters.eraseDups
  keys_nodup := .nil
  alphabet_nodup := eraseDups_nodup letters
  label_mem := by simp [Diagram.empty]

def empty : DFA α :=
  withAlphabet []

def leaves (i : Nat) (a : α) (e : Edge α) : Bool :=
  e.source = i && e.label = a

theorem leaves_iff {i : Nat} {a : α} {e : Edge α} : leaves i a e ↔ e.key = (i, a) := by
  simp [leaves, key_eq_iff]

def target? (d : DFA α) (i : Nat) (a : α) : Option Nat :=
  (d.edges.find? (leaves i a)).map Edge.target

def pushEdge (d : DFA α) (e : Edge α) (hs : e.source < d.size) (ht : e.target < d.size)
    (fresh : e.key ∉ d.edges.toList.map Edge.key) : DFA α where
  toDiagram := d.withEdges (d.edges.push e) (by
    intro f hf
    rcases Array.mem_push.mp hf with hf | rfl
    · exact d.ends_lt f hf
    · exact ⟨hs, ht⟩)
  alphabet := if e.label ∈ d.alphabet then d.alphabet else d.alphabet ++ [e.label]
  keys_nodup := by
    change ((d.edges.push e).toList.map Edge.key).Nodup
    rw [Array.toList_push, List.map_append]
    refine List.nodup_append.mpr ⟨d.keys_nodup, by simp, ?_⟩
    intro x hx y hy
    rw [List.map_singleton, List.mem_singleton] at hy
    exact fun he => fresh (hy ▸ he ▸ hx)
  alphabet_nodup := by
    split
    · exact d.alphabet_nodup
    · rename_i he
      refine List.nodup_append.mpr ⟨d.alphabet_nodup, by simp, ?_⟩
      intro a ha b hb
      rw [List.mem_singleton.mp hb]
      exact fun hab => he (hab ▸ ha)
  label_mem f hf := by
    rcases Array.mem_push.mp hf with hf | rfl
    · have := d.label_mem f hf
      split
      · exact this
      · exact List.mem_append_left _ this
    · split
      · assumption
      · exact List.mem_append_right _ List.mem_cons_self

/-- The edge from a state with a letter, led to the given target. An edge that leads elsewhere is
taken out and a new one put at the end. -/
def addEdge (d : DFA α) (source : Nat) (a : α) (target : Nat) : Except Fault (DFA α × Nat) :=
  match hk : d.edges.findIdx? (leaves source a) with
  | some k =>
    have hlt : k < d.edges.size := (Array.findIdx?_eq_some_iff_getElem.mp hk).1
    have hkey : d.edges[k].key = (source, a) :=
      leaves_iff.mp (Array.findIdx?_eq_some_iff_getElem.mp hk).2.1
    if d.edges[k].target = target then .ok (d, k)
    else if ht : target < d.size then
      let kept := d.dropEdge k hlt
      have hs : source < d.size :=
        (key_eq_iff.mp hkey).1 ▸ (d.ends_lt _ (Array.getElem_mem hlt)).1
      have fresh : (source, a) ∉ kept.edges.toList.map Edge.key := hkey ▸ d.key_dropEdge k hlt
      .ok (kept.pushEdge ⟨source, a, target⟩ hs ht fresh, kept.edges.size)
    else .error .edgeOutside
  | none =>
    if hb : source < d.size ∧ target < d.size then
      have fresh : (source, a) ∉ d.edges.toList.map Edge.key := by
        intro hm
        obtain ⟨e, he, hkey⟩ := List.mem_map.mp hm
        have := Array.findIdx?_eq_none_iff.mp hk e (Array.mem_toList_iff.mp he)
        rw [leaves_iff.mpr hkey] at this
        cases this
      .ok (d.pushEdge ⟨source, a, target⟩ hb.1 hb.2 fresh, d.edges.size)
    else .error .edgeOutside

def builder : Builder (DFA α) α where
  addState := addState
  setStart := setStart
  setFinal := setFinal
  addEdge := addEdge

def declare (d : DFA α) (x : Declaration α) : Except Fault (DFA α × Nat) :=
  builder.declare d x

def extend (d : DFA α) (declarations : List (Declaration α)) : Except Fault (DFA α) :=
  builder.extend d declarations

def build (letters : List α) (declarations : List (Declaration α)) : Except Fault (DFA α) :=
  (withAlphabet letters).extend declarations

end DFA

end Automata
