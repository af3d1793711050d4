import Automata.Event
import Automata.NFA.Run
import Automata.Settings.Basic
import Automata.StateSet.Count

namespace Automata

variable {α : Type}

inductive Failure (α : Type) where
  | refused (error : Error)
  | fault (fault : Fault)
  | incomplete (gap : Gap α)
deriving DecidableEq

/-- A conversion that ended without a result, with what it had reported until then. -/
structure Halt (α : Type) where
  log : Array (Event α)
  failure : Failure α

/-- A conversion of `n` under way. State `i` of the automaton so far stands for the set at
position `i`; the sets that still wait for their edges are listed with the next one in front. -/
structure Construction (n : NFA α) where
  dfa : DFA α
  discovered : Array StateSet
  pending : List StateSet
  log : Array (Event α)
  distinct : discovered.toList.Nodup
  bounded : ∀ s ∈ discovered, ∀ i ∈ s, i < n.size

/-- A step that succeeds after another needs the other to succeed. -/
theorem bind_eq_ok {ε β γ : Type} {x : Except ε β} {f : β → Except ε γ} {y : γ} :
    x >>= f = .ok y ↔ ∃ b, x = .ok b ∧ f b = .ok y := by
  cases x with
  | error e => exact ⟨nofun, nofun⟩
  | ok b => exact ⟨fun h => ⟨b, rfl, h⟩, fun ⟨_, hb, h⟩ => Except.ok.inj hb ▸ h⟩

namespace Construction

variable {n : NFA α}

def report (c : Construction n) (e : Event α) : Construction n :=
  { c with log := c.log.push e }

def attempt {β : Type} (c : Construction n) : Except Fault β → Except (Halt α) β
  | .ok x => .ok x
  | .error f => .error ⟨c.log, .fault f⟩

/-- Reports the numbers of sets if the interval divides the number of those discovered. -/
def reportProgress (c : Construction n) (interval : Nat) : Construction n :=
  if 0 < interval ∧ c.discovered.size % interval = 0 then
    c.report (.progress c.discovered.size c.pending.length)
  else c

/-- Gives a new set the next number, appends it to the sets that wait, and reports it. -/
def record (c : Construction n) (dfa : DFA α) (e : Event α) (s : StateSet)
    (fresh : s ∉ c.discovered) (bounded : ∀ i ∈ s, i < n.size) : Construction n where
  dfa := dfa
  discovered := c.discovered.push s
  pending := c.pending ++ [s]
  log := c.log.push e
  distinct := by
    rw [Array.toList_push]
    refine List.nodup_append.mpr ⟨c.distinct, by simp, ?_⟩
    intro t ht u hu
    rw [List.mem_singleton.mp hu]
    exact fun h => fresh (h ▸ Array.mem_toList_iff.mp ht)
  bounded t ht := by
    rcases Array.mem_push.mp ht with ht | rfl
    · exact c.bounded t ht
    · exact bounded

/-- Makes a new set a state of the result, unless there are as many states as the limit allows. -/
def discover (c : Construction n) (settings : Settings) (s : StateSet) (fresh : s ∉ c.discovered)
    (bounded : ∀ i ∈ s, i < n.size) : Except (Halt α) (Construction n × Nat) :=
  match (settings.maxStates.map UInt64.toNat).filter (· ≤ c.discovered.size) with
  | some max =>
    .error ⟨c.log.push (.limitReached max), .refused (.limitExceeded (c.discovered.size + 1) max)⟩
  | none => do
    let name ← c.attempt (n.setName s)
    let accepting ← c.attempt (n.anyFinal s)
    let e := .discovered name accepting
    let (dfa, i) ← (c.report e).attempt (c.dfa.pushState ⟨name, accepting⟩)
    return ((c.record dfa e s fresh bounded).reportProgress settings.progressInterval.toNat, i)

/-- How many sets can still be taken from those that wait: the ones that wait now, and the ones
that may yet be discovered. -/
def remaining (c : Construction n) : Nat :=
  Nat.pow 2 n.size - c.discovered.size + c.pending.length

theorem size_le (c : Construction n) : c.discovered.size ≤ Nat.pow 2 n.size := by
  have := StateSet.length_le_two_pow (n := n.size) c.distinct fun s hs =>
    c.bounded s (Array.mem_toList_iff.mp hs)
  simpa using this

theorem remaining_record (c : Construction n) (dfa : DFA α) (e : Event α) (s : StateSet)
    (fresh : s ∉ c.discovered) (bounded : ∀ i ∈ s, i < n.size) :
    (c.record dfa e s fresh bounded).remaining = c.remaining := by
  have hle := (c.record dfa e s fresh bounded).size_le
  simp only [record, Array.size_push] at hle
  simp only [remaining, record, Array.size_push, List.length_append, List.length_singleton]
  omega

@[simp] theorem remaining_reportProgress (c : Construction n) (interval : Nat) :
    (c.reportProgress interval).remaining = c.remaining := by
  unfold reportProgress
  split <;> rfl

theorem remaining_discover {c c' : Construction n} {settings : Settings} {s : StateSet}
    {fresh : s ∉ c.discovered} {bounded : ∀ i ∈ s, i < n.size} {i : Nat}
    (h : c.discover settings s fresh bounded = .ok (c', i)) : c'.remaining = c.remaining := by
  unfold discover at h
  split at h
  · cases h
  · obtain ⟨name, _, h⟩ := bind_eq_ok.mp h
    obtain ⟨accepting, _, h⟩ := bind_eq_ok.mp h
    obtain ⟨⟨dfa, j⟩, _, h⟩ := bind_eq_ok.mp h
    cases h
    rw [remaining_reportProgress, remaining_record]

/-- The number of a set, which is discovered if it is new. -/
def number (c : Construction n) (settings : Settings) (s : StateSet)
    (bounded : ∀ i ∈ s, i < n.size) : Except (Halt α) (Construction n × Nat) :=
  match h : c.discovered.findIdx? (· = s) with
  | some i => .ok (c, i)
  | none =>
    have fresh : s ∉ c.discovered := fun hs =>
      of_decide_eq_false (Array.findIdx?_eq_none_iff.mp h s hs) rfl
    c.discover settings s fresh bounded

theorem remaining_number {c c' : Construction n} {settings : Settings} {s : StateSet}
    {bounded : ∀ i ∈ s, i < n.size} {i : Nat} (h : c.number settings s bounded = .ok (c', i)) :
    c'.remaining = c.remaining := by
  unfold number at h
  split at h
  · cases h
    rfl
  · exact remaining_discover h

variable [DecidableEq α]

def begin (n : NFA α) : Construction n where
  dfa := .withAlphabet n.alphabet
  discovered := #[]
  pending := []
  log := #[.started n.size n.alphabet.length]
  distinct := .nil
  bounded := by simp

def link (c : Construction n) (source : Nat) (a : α) (target : Nat) :
    Except (Halt α) (Construction n) := do
  let p ← c.attempt (c.dfa.stateAt source)
  let q ← c.attempt (c.dfa.stateAt target)
  let c := c.report (.transition p.name a q.name)
  let (dfa, _) ← c.attempt (c.dfa.addEdge source a target)
  return { c with dfa }

def connect (settings : Settings) (s : StateSet) (source : Nat) (c : Construction n) (a : α) :
    Except (Halt α) (Construction n) := do
  let (c, target) ← c.number settings (n.follow s a) NFA.mem_follow_lt
  c.link source a target

def expand (c : Construction n) (settings : Settings) (s : StateSet) :
    Except (Halt α) (Construction n) :=
  match c.discovered.findIdx? (· = s) with
  | none => .error ⟨c.log, .fault .undiscovered⟩
  | some source => n.alphabet.foldlM (connect settings s source) c

theorem remaining_link {c c' : Construction n} {source target : Nat} {a : α}
    (h : c.link source a target = .ok c') : c'.remaining = c.remaining := by
  obtain ⟨p, _, h⟩ := bind_eq_ok.mp h
  obtain ⟨q, _, h⟩ := bind_eq_ok.mp h
  obtain ⟨⟨dfa, _⟩, _, h⟩ := bind_eq_ok.mp h
  cases h
  rfl

theorem remaining_connect {settings : Settings} {s : StateSet} {source : Nat}
    {c c' : Construction n} {a : α} (h : connect settings s source c a = .ok c') :
    c'.remaining = c.remaining := by
  obtain ⟨⟨c₁, target⟩, hnumber, h⟩ := bind_eq_ok.mp h
  rw [remaining_link h, remaining_number hnumber]

theorem remaining_foldlM_connect {settings : Settings} {s : StateSet} {source : Nat}
    {letters : List α} {c c' : Construction n}
    (h : letters.foldlM (connect settings s source) c = .ok c') : c'.remaining = c.remaining := by
  induction letters generalizing c with
  | nil =>
    cases h
    rfl
  | cons a letters ih =>
    obtain ⟨c₁, hc, h⟩ := bind_eq_ok.mp h
    exact (ih h).trans (remaining_connect hc)

/-- A set that gets its edges brings as many new sets to wait as it takes from the possible ones. -/
theorem remaining_expand {c c' : Construction n} {settings : Settings} {s : StateSet}
    (h : c.expand settings s = .ok c') : c'.remaining = c.remaining := by
  unfold expand at h
  split at h
  · cases h
  · exact remaining_foldlM_connect h

def explore (settings : Settings) (c : Construction n) : Except (Halt α) (Construction n) :=
  match _ : c.pending with
  | [] => .ok c
  | s :: rest =>
    match _ : { c with pending := rest }.expand settings s with
    | .error halt => .error halt
    | .ok c' => explore settings c'
termination_by c.remaining
decreasing_by
  rename_i hp he
  rw [remaining_expand he]
  simp [remaining, hp]

theorem explore_nil {settings : Settings} {c : Construction n} (hp : c.pending = []) :
    explore settings c = .ok c := by
  unfold explore
  split
  · rfl
  · rename_i hp'
    rw [hp] at hp'
    cases hp'

/-- The search takes the first pending set and goes on with what its turn leaves. -/
theorem explore_cons {settings : Settings} {c : Construction n} {s : StateSet}
    {rest : List StateSet} (hp : c.pending = s :: rest) :
    explore settings c = { c with pending := rest }.expand settings s >>= explore settings := by
  conv => lhs; unfold explore
  split
  · rename_i hp'
    rw [hp] at hp'
    cases hp'
  · rename_i hp'
    obtain ⟨rfl, rfl⟩ := List.cons.inj (hp.symm.trans hp')
    split
    · rename_i halt he
      rw [he]
      rfl
    · rename_i c' he
      rw [he]
      rfl

def finish (c : Construction n) : Except (Halt α) (Construction n) :=
  match c.dfa.requireComplete with
  | .error gap => .error ⟨c.log, .incomplete gap⟩
  | .ok () => .ok (c.report (.finished c.dfa.size c.dfa.edges.size))

/-- Discovers the closure of the start state, whose state is the start of the result. -/
def launch (settings : Settings) {i : Nat} (h : n.start = some i) :
    Except (Halt α) (Construction n) := do
  let (c, start) ←
    (begin n).discover settings (n.closure [i]) (by simp [begin]) (NFA.mem_closure_start_lt h)
  let dfa ← c.attempt (c.dfa.setStart start)
  return { c with dfa }

def run (n : NFA α) (settings : Settings) : Except (Halt α) (Construction n) :=
  match h : n.start with
  | none => .error ⟨(begin n).log, .refused .missingStart⟩
  | some _ => do
    let c ← launch settings h
    let c ← explore settings c
    c.finish

end Construction

structure Outcome (α : Type) where
  log : Array (Event α)
  result : Except (Failure α) (DFA α)

/-- The deterministic automaton that subset construction makes. -/
def NFA.determinize [DecidableEq α] (n : NFA α) (settings : Settings) : Outcome α :=
  match Construction.run n settings with
  | .ok c => ⟨c.log, .ok c.dfa⟩
  | .error halt => ⟨halt.log, .error halt.failure⟩

end Automata
