import Automata.Declaration
import Automata.Diagram
import Automata.Label

namespace Automata

structure NFA (α : Type) extends Diagram (Label α) where
  alphabet : List α
  edges_nodup : edges.toList.Nodup
  alphabet_nodup : alphabet.Nodup
  mem_alphabet : ∀ a, a ∈ alphabet ↔ ∃ e ∈ edges, e.label = .symbol a

namespace NFA

variable {α : Type}

def empty : NFA α where
  toDiagram := .empty
  alphabet := []
  edges_nodup := .nil
  alphabet_nodup := .nil
  mem_alphabet := by simp [Diagram.empty]

def addState (n : NFA α) (name : String) : NFA α × Nat :=
  ({ n with toDiagram := (n.toDiagram.addState name).1 }, (n.toDiagram.addState name).2)

def setStart (n : NFA α) (i : Nat) : Except Fault (NFA α) :=
  if h : i < n.size then .ok { n with toDiagram := n.withStart i h }
  else .error (.startOutside .nfa i)

def setFinal (n : NFA α) (i : Nat) : Except Fault (NFA α) :=
  if i < n.size then .ok { n with toDiagram := n.toDiagram.accept i }
  else .error (.stateOutside n.size i)

variable [DecidableEq α]

def withLetter (alphabet : List α) : Label α → List α
  | .symbol a => if a ∈ alphabet then alphabet else alphabet ++ [a]
  | .epsilon => alphabet

/-- A label brings its own letter into the alphabet and nothing else. -/
theorem mem_withLetter {alphabet : List α} {label : Label α} {a : α} :
    a ∈ withLetter alphabet label ↔ a ∈ alphabet ∨ label = .symbol a := by
  cases label with
  | epsilon => simp [withLetter]
  | symbol b =>
    simp only [withLetter]
    split
    · rename_i hb
      refine ⟨.inl, ?_⟩
      rintro (ha | hb')
      · exact ha
      · exact Label.symbol.inj hb' ▸ hb
    · simp only [List.mem_append, List.mem_singleton, Label.symbol.injEq]
      exact or_congr_right eq_comm

theorem withLetter_nodup {alphabet : List α} (h : alphabet.Nodup) (label : Label α) :
    (withLetter alphabet label).Nodup := by
  cases label with
  | epsilon => exact h
  | symbol a =>
    simp only [withLetter]
    split
    · exact h
    · rename_i ha
      refine List.nodup_append.mpr ⟨h, by simp, ?_⟩
      intro b hb c hc
      rw [List.mem_singleton.mp hc]
      exact fun he => ha (he ▸ hb)

def pushEdge (n : NFA α) (e : Edge (Label α)) (hs : e.source < n.size) (ht : e.target < n.size)
    (fresh : e ∉ n.edges) : NFA α where
  toDiagram := n.withEdges (n.edges.push e) (by
    intro f hf
    rcases Array.mem_push.mp hf with hf | rfl
    · exact n.ends_lt f hf
    · exact ⟨hs, ht⟩)
  alphabet := withLetter n.alphabet e.label
  edges_nodup := by
    change (n.edges.push e).toList.Nodup
    rw [Array.toList_push]
    refine List.nodup_append.mpr ⟨n.edges_nodup, by simp, ?_⟩
    intro f hf g hg
    rw [List.mem_singleton.mp hg]
    exact fun he => fresh (he ▸ Array.mem_toList_iff.mp hf)
  alphabet_nodup := withLetter_nodup n.alphabet_nodup e.label
  mem_alphabet a := by
    change _ ↔ ∃ f ∈ n.edges.push e, _
    rw [mem_withLetter, n.mem_alphabet]
    constructor
    · rintro (⟨f, hf, hl⟩ | hl)
      · exact ⟨f, Array.mem_push.mpr (.inl hf), hl⟩
      · exact ⟨e, Array.mem_push.mpr (.inr rfl), hl⟩
    · rintro ⟨f, hf, hl⟩
      rcases Array.mem_push.mp hf with hf | rfl
      · exact .inl ⟨f, hf, hl⟩
      · exact .inr hl

/-- The edge between two states with a label, created if there is none. -/
def addEdge (n : NFA α) (source : Nat) (label : Label α) (target : Nat) :
    Except Fault (NFA α × Nat) :=
  let e : Edge (Label α) := ⟨source, label, target⟩
  match h : n.edges.findIdx? (· = e) with
  | some k => .ok (n, k)
  | none =>
    if hb : source < n.size ∧ target < n.size then
      have fresh : e ∉ n.edges := fun he =>
        of_decide_eq_false (Array.findIdx?_eq_none_iff.mp h e he) rfl
      .ok (n.pushEdge e hb.1 hb.2 fresh, n.edges.size)
    else .error .edgeOutside

def builder : Builder (NFA α) (Label α) where
  addState := addState
  setStart := setStart
  setFinal := setFinal
  addEdge := addEdge

def declare (n : NFA α) (x : Declaration (Label α)) : Except Fault (NFA α × Nat) :=
  builder.declare n x

def extend (n : NFA α) (declarations : List (Declaration (Label α))) : Except Fault (NFA α) :=
  builder.extend n declarations

def build (declarations : List (Declaration (Label α))) : Except Fault (NFA α) :=
  empty.extend declarations

end NFA

end Automata
