import Automata.Proofs.Course
import Automata.Proofs.Limit

namespace Automata

variable {α : Type} {n : NFA α}

namespace Construction

/-- A set can become a state: its members are states, so it has a name and a final mark, and no
state has its name. -/
structure Discoverable (c : Construction n) (s : StateSet) : Prop where
  members : ∀ i ∈ s, i < n.size
  named : ∃ name, n.setName s = .ok name ∧ name ∉ c.dfa.states.map State.name
  marked : ∃ accepting, n.anyFinal s = .ok accepting

theorem discoverable_of_fresh {c : Construction n} {s : StateSet} (members : ∀ i ∈ s, i < n.size)
    (hname : (n.stateFor s).name ∉ c.dfa.states.map State.name) : c.Discoverable s :=
  ⟨members, ⟨_, Diagram.setName_eq members, hname⟩, _, Diagram.anyFinal_eq members⟩

variable [DecidableEq α]

/-- What is done next finds what it needs. -/
def Moment.Safe : Moment n → Prop
  | .opening i _ => (begin n).Discoverable (n.closure [i])
  | .opened c start => start < c.dfa.size
  | .head c =>
    (∀ s rest, c.pending = s :: rest → ∃ source, c.discovered.findIdx? (· = s) = some source) ∧
      (c.pending = [] → c.dfa.gap? = none)
  | .expanding c s _ letters =>
    ∀ a rest, letters = a :: rest → n.follow s a ∉ c.discovered → c.Discoverable (n.follow s a)
  | .drawing c _ source a target _ => c.Drawable source a target

/-- No set waits any more. -/
def Moment.Last : Moment n → Prop
  | .head c => c.pending = []
  | _ => False

/-- A set is discovered next for which the limit leaves no room. -/
def Moment.Full (settings : Settings) : Moment n → Prop
  | .opening _ _ => ¬ Room settings (begin n)
  | .expanding c s _ (a :: _) => n.follow s a ∉ c.discovered ∧ ¬ Room settings c
  | _ => False

variable {settings : Settings} {taken : List StateSet} {m : Moment n}

/-- Where the invariant holds, what is done next finds what it needs. -/
theorem Moment.Invariant.safe (h : m.Invariant settings taken) : m.Safe := by
  cases m with
  | opening i hi =>
    exact discoverable_of_fresh (NFA.mem_closure_start_lt hi) (by simp [begin_names])
  | opened c start =>
    obtain ⟨_, rfl, _, i, _, hg⟩ := h
    exact hg.size_pos
  | head c =>
    obtain ⟨count, _, hcoherent⟩ := h
    refine ⟨?_, fun hp => (hcoherent.finished hp).gap?_eq_none⟩
    intro s rest hp
    exact ⟨count, findIdx?_discovered (hcoherent.take hp).1⟩
  | expanding c s source letters =>
    obtain ⟨_, _, _, _, hcoherent⟩ := h
    intro a _ _ fresh
    exact discoverable_of_fresh NFA.mem_follow_lt (hcoherent.name_fresh NFA.mem_follow_lt fresh)
  | drawing c s source a target letters =>
    exact h.drawable

/-- A moment is the last, or it has met the limit, or there is a next step. -/
theorem Moment.Invariant.progress (h : m.Invariant settings taken) :
    m.Last ∨ m.Full settings ∨ ∃ now m', Step settings m now m' := by
  cases m with
  | opening i hi =>
    by_cases room : Room settings (begin n)
    · obtain ⟨c, hdiscover, _⟩ := discover_begin (not_mem_begin _) (NFA.mem_closure_start_lt hi) room
      exact .inr (.inr ⟨_, _, .discover hdiscover⟩)
    · exact .inr (.inl room)
  | opened c start =>
    obtain ⟨_, rfl, _, i, _, hg⟩ := h
    obtain ⟨dfa, hset, _⟩ := DFA.setStart_eq hg.size_pos
    exact .inr (.inr ⟨_, _, .setStart hset⟩)
  | head c =>
    obtain ⟨count, _, hcoherent⟩ := h
    cases hp : c.pending with
    | nil => exact .inl hp
    | cons s rest =>
      have hs := findIdx?_discovered (hcoherent.take hp).1
      exact .inr (.inr ⟨_, _, .take hp hs⟩)
  | expanding c s source letters =>
    obtain ⟨_, _, _, _, hcoherent⟩ := h
    cases letters with
    | nil => exact .inr (.inr ⟨_, _, .done⟩)
    | cons a letters =>
      rcases hcoherent.number (NFA.mem_follow_lt (s := s) (a := a)) with
        ⟨c', target, hnumber, _⟩ | ⟨max, hm, hfull, fresh, _⟩
      · exact .inr (.inr ⟨_, _, .number hnumber⟩)
      · exact .inr (.inl ⟨fresh, fun room => Nat.not_lt.mpr hfull (room max hm)⟩)
  | drawing c s source a target letters =>
    obtain ⟨c', hlink, _⟩ := h.drawable.link
    exact .inr (.inr ⟨_, _, .draw hlink⟩)

end Construction

namespace NFA

variable [DecidableEq α]

/-- A conversion comes to a result or is refused. At each of its moments it finds what it needs, and
it goes on from there unless it is at its end or has met the limit. -/
theorem determinize_never_faults (n : NFA α) (settings : Settings) :
    ((∃ d, (n.determinize settings).result = .ok d) ∨
      ∃ e, (n.determinize settings).result = .error (.refused e)) ∧
    ∀ taken (m : Construction.Moment n), Construction.Course settings taken m →
      Construction.run n settings = m.resume settings ∧ m.Safe ∧
        (m.Last ∨ m.Full settings ∨ ∃ now m', Construction.Step settings m now m') := by
  refine ⟨?_, fun taken m h => ⟨h.run_eq, h.invariant.safe, h.invariant.progress⟩⟩
  by_cases hstart : n.start = none
  · exact .inr ⟨_, n.determinize_missingStart settings hstart⟩
  · rcases n.determinize_of_start settings hstart with ⟨d, hd, _⟩ | ⟨max, _, _, he⟩
    · exact .inl ⟨d, hd⟩
    · exact .inr ⟨_, he⟩

end NFA

end Automata
