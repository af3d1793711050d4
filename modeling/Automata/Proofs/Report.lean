import Automata.Proofs.Layout
import Automata.Proofs.Termination

namespace Automata

variable {α : Type}

def Event.isDiscovery : Event α → Bool
  | .discovered .. => true
  | _ => false

/-- A state keeps its handle when states are added. -/
theorem Diagram.state?_of_extends {ℓ : Type} {d d' : Diagram ℓ} (h : d.states <+: d'.states)
    {i : Nat} (hi : i < d.size) : d'.state? i = d.state? i := by
  obtain ⟨rest, hrest⟩ := h
  rw [← states_getElem?, ← states_getElem?, ← hrest, List.getElem?_append_left (by simpa using hi)]

namespace DFA

/-- What is reported of a state when it is discovered and so many sets wait. -/
def discoveryReport (d : DFA α) (interval t pending : Nat) : List (Event α) :=
  .discovered (d.nameOf t) (d.isFinal t) ::
    if 0 < interval ∧ interval ∣ t + 1 then [.progress (t + 1) pending] else []

/-- What is reported of the target of an edge when the states in `met` are discovered already. The
sets that wait are those behind the source of the edge. -/
def targetReport (d : DFA α) (interval : Nat) (met : List Nat) (source target : Nat) :
    List (Event α) :=
  if target ∈ met then [] else d.discoveryReport interval target (target - source)

def edgeReport (d : DFA α) (interval : Nat) (met : List Nat) (e : Edge α) : List (Event α) :=
  d.targetReport interval met e.source e.target ++
    [.transition (d.nameOf e.source) e.label (d.nameOf e.target)]

def edgesReport (d : DFA α) (interval : Nat) : List Nat → List (Edge α) → List (Event α)
  | _, [] => []
  | met, e :: es =>
    d.edgeReport interval met e ++ d.edgesReport interval (met ++ [e.target]) es

/-- What is reported until all edges are drawn, in the conversion of an automaton with so many
states. -/
def report (d : DFA α) (interval states : Nat) : List (Event α) :=
  .started states d.alphabet.length ::
    (d.discoveryReport interval 0 1 ++ d.edgesReport interval [0] d.edges.toList)

def met (d : DFA α) : List Nat :=
  0 :: d.edges.toList.map Edge.target

theorem edgesReport_concat (d : DFA α) (interval : Nat) (met : List Nat) (es : List (Edge α))
    (e : Edge α) : d.edgesReport interval met (es ++ [e]) =
      d.edgesReport interval met es ++ d.edgeReport interval (met ++ es.map Edge.target) e := by
  induction es generalizing met with
  | nil => simp [edgesReport]
  | cons f es ih => simp [edgesReport, ih]

variable {d d' : DFA α} {interval : Nat}

theorem discoveryReport_of_extends (h : d.states <+: d'.states) {t : Nat} (ht : t < d.size)
    (pending : Nat) :
    d'.discoveryReport interval t pending = d.discoveryReport interval t pending := by
  simp only [discoveryReport, Diagram.nameOf, Diagram.isFinal, Diagram.state?_of_extends h ht]

/-- The report on edges is read off the states they join, and later states do not change it. -/
theorem edgesReport_of_extends (h : d.states <+: d'.states) {es : List (Edge α)}
    (hes : ∀ e ∈ es, e.source < d.size ∧ e.target < d.size) (met : List Nat) :
    d'.edgesReport interval met es = d.edgesReport interval met es := by
  induction es generalizing met with
  | nil => rfl
  | cons e es ih =>
    obtain ⟨⟨hsource, htarget⟩, hrest⟩ := List.forall_mem_cons.mp hes
    simp only [edgesReport, edgeReport, targetReport, discoveryReport_of_extends h htarget,
      Diagram.nameOf, Diagram.state?_of_extends h hsource, Diagram.state?_of_extends h htarget,
      ih hrest]

/-- States that are added are not reported before their edges. -/
theorem report_of_extends (h : d.states <+: d'.states) (edges : d'.edges = d.edges)
    (alphabet : d'.alphabet = d.alphabet) (hpos : 0 < d.size) (states : Nat) :
    d'.report interval states = d.report interval states := by
  have hends : ∀ e ∈ d.edges.toList, e.source < d.size ∧ e.target < d.size :=
    fun e he => d.ends_lt e (Array.mem_toList_iff.mp he)
  rw [report, report, edges, alphabet, discoveryReport_of_extends h hpos,
    edgesReport_of_extends h hends]

/-- An edge that is added is reported after the others. -/
theorem report_push (h : d'.states = d.states) {e : Edge α} (edges : d'.edges = d.edges.push e)
    (alphabet : d'.alphabet = d.alphabet) (states : Nat) :
    d'.report interval states = d.report interval states ++
      d.edgeReport interval d.met e := by
  have hstate : ∀ i, d'.state? i = d.state? i := by
    intro i
    rw [← Diagram.states_getElem?, ← Diagram.states_getElem?, h]
  have hends : ∀ e ∈ d.edges.toList, e.source < d.size ∧ e.target < d.size :=
    fun e he => d.ends_lt e (Array.mem_toList_iff.mp he)
  rw [report, report, edges, alphabet, Array.toList_push, edgesReport_concat,
    edgesReport_of_extends (h ▸ List.prefix_rfl) hends]
  simp [edgeReport, targetReport, met, discoveryReport, Diagram.nameOf, Diagram.isFinal, hstate]

end DFA

variable {n : NFA α}

namespace Construction

variable {settings : Settings} {c c' : Construction n}

theorem discovery_eq {d : DFA α} {t : Nat} {s : StateSet} (h : d.state? t = some (n.stateFor s))
    (pending : Nat) : discovery n settings s (t + 1) pending =
      d.discoveryReport settings.progressInterval.toNat t pending := by
  simp only [discovery, DFA.discoveryReport, Diagram.nameOf_eq h, Diagram.isFinal_eq h,
    Nat.dvd_iff_mod_eq_zero]

theorem filter_discovery (s : StateSet) (discovered pending : Nat) :
    (discovery n settings s discovered pending).filter Event.isDiscovery =
      [.discovered (n.stateFor s).name (n.stateFor s).accepting] := by
  unfold discovery
  split <;> rfl

theorem Grown.states_extend {s : StateSet} (h : Grown settings s c c') :
    c.dfa.states <+: c'.dfa.states :=
  h.states ▸ List.prefix_append _ _

theorem Grown.state {s : StateSet} (h : Grown settings s c c') :
    c'.dfa.state? c.dfa.size = some (n.stateFor s) := by
  rw [← Diagram.states_getElem?, h.states, ← Diagram.length_states, List.getElem?_concat_length]

/-- What a step does to the result and to the log: nothing, or it adds a state or an edge. -/
inductive Change (settings : Settings) (c c' : Construction n) : Prop
  | quiet : c'.dfa.states = c.dfa.states → c'.dfa.edges = c.dfa.edges →
      c'.dfa.alphabet = c.dfa.alphabet → c'.log = c.log → Change settings c c'
  | grown {s : StateSet} : Grown settings s c c' → Change settings c c'
  | linked {i t : Nat} {a : α} : Linked i a t c c' → Change settings c c'

/-- What is reported is not taken back. -/
theorem Change.log_extends (h : Change settings c c') : c.log.toList <+: c'.log.toList := by
  cases h with
  | quiet _ _ _ hlog => rw [hlog]
  | grown hg => exact hg.log ▸ List.prefix_append _ _
  | linked hl => exact hl.log ▸ List.prefix_append _ _

/-- The states are reported one by one, in the order of their handles. -/
def Announced (c : Construction n) : Prop :=
  c.log.toList.filter Event.isDiscovery = c.dfa.states.map fun s => .discovered s.name s.accepting

theorem Change.announced (h : Change settings c c') (hc : c.Announced) : c'.Announced := by
  unfold Announced at hc ⊢
  cases h with
  | quiet hstates _ _ hlog => rw [hstates, hlog, hc]
  | grown hg =>
    rw [hg.log, hg.states, List.filter_append, hc, filter_discovery, List.map_append]
    rfl
  | linked hl =>
    rw [hl.log, hl.states, List.filter_append, hc]
    exact List.append_nil _

variable [DecidableEq α]

theorem begin_announced (n : NFA α) : (begin n).Announced := rfl

theorem Drawable.linked {source target : Nat} {a : α} (h : Drawable c source a target)
    (hlink : c.link source a target = .ok c') : Linked source a target c c' := by
  obtain ⟨c₁, hlink', hl⟩ := h.link
  exact Except.ok.inj (hlink.symm.trans hlink') ▸ hl

variable {taken now : List StateSet} {m m' : Moment n}

/-- The first state becomes the start, and nothing else happens then. -/
theorem Moment.Invariant.setStart {start : Nat} {dfa : DFA α}
    (h : (Moment.opened c start).Invariant settings taken)
    (hset : c.dfa.setStart start = .ok dfa) :
    0 < c.dfa.size ∧ dfa.states = c.dfa.states ∧ dfa.edges = c.dfa.edges ∧
      dfa.alphabet = c.dfa.alphabet := by
  obtain ⟨_, rfl, _, _, _, hg⟩ := h
  obtain ⟨_, hset', hstates, hedges, _, halphabet⟩ := DFA.setStart_eq hg.size_pos
  obtain rfl := Except.ok.inj (hset.symm.trans hset')
  exact ⟨hg.size_pos, hstates, hedges, halphabet⟩

theorem Step.change (h : Step settings m now m') (hm : m.Invariant settings taken) :
    Change settings m.current m'.current := by
  cases h with
  | discover hdiscover => exact .grown (discover_first hdiscover).2.2
  | setStart hset =>
    obtain ⟨_, hstates, hedges, halphabet⟩ := hm.setStart hset
    exact .quiet hstates hedges halphabet rfl
  | take => exact .quiet rfl rfl rfl rfl
  | number hnumber =>
    obtain ⟨_, _, _, _, hcoherent⟩ := hm
    cases hcoherent.number_ok hnumber with
    | known => exact .quiet rfl rfl rfl rfl
    | new _ _ hg => exact .grown hg
  | draw hlink => exact .linked (hm.drawable.linked hlink)
  | done => exact .quiet rfl rfl rfl rfl

theorem Course.announced (h : Course settings taken m) : m.current.Announced := by
  induction h with
  | opening => exact begin_announced n
  | step hcourse hstep ih => exact (hstep.change hcourse.invariant).announced ih

/-- The log is the report of what is drawn so far, and something more. -/
def Reported (settings : Settings) (c : Construction n) (more : List (Event α)) : Prop :=
  c.log.toList = c.dfa.report settings.progressInterval.toNat n.size ++ more

/-- What the log is at each moment. A state is reported before the edge that leads to it is
drawn. -/
def Moment.Reported (settings : Settings) : Moment n → Prop
  | .opening _ _ => True
  | .opened c _ => Construction.Reported settings c []
  | .head c => Construction.Reported settings c []
  | .expanding c _ _ _ => Construction.Reported settings c []
  | .drawing c _ source _ target _ => Construction.Reported settings c
    (c.dfa.targetReport settings.progressInterval.toNat c.dfa.met source target)

theorem Reported.first {s : StateSet} (hg : Grown settings s (begin n) c) :
    Reported settings c [] := by
  have hedges : c.dfa.edges = #[] := hg.edges
  have halphabet : c.dfa.alphabet = n.alphabet :=
    hg.alphabet.trans (eraseDups_of_nodup n.alphabet_nodup)
  have hstate : c.dfa.state? 0 = some (n.stateFor s) := hg.state
  rw [Reported, hg.log, DFA.report, hedges, halphabet, ← discovery_eq hstate]
  simp only [DFA.edgesReport, List.append_nil]
  rfl

/-- All states are met, as each one but the start was discovered over an edge. -/
theorem Coherent.mem_met_iff {count : Nat} {keys : List (Nat × α)}
    (h : Coherent settings c count keys) {t : Nat} :
    t ∈ c.dfa.met ↔ t < c.discovered.size := by
  constructor
  · intro ht
    rcases List.mem_cons.mp ht with rfl | ht
    · obtain ⟨_, _, hfirst⟩ := h.first
      exact (Array.getElem?_eq_some_iff.mp hfirst).1
    · obtain ⟨e, he, rfl⟩ := List.mem_map.mp ht
      exact h.target_lt (Array.mem_toList_iff.mp he)
  · intro ht
    rcases Nat.eq_zero_or_pos t with rfl | hpos
    · exact List.mem_cons_self
    · obtain ⟨before, e, after, hedges, rfl, _⟩ := h.mentioned t hpos ht
      exact List.mem_cons_of_mem _ (List.mem_map_of_mem (by simp [hedges]))

/-- A set that waits for its number is reported if it is new, and the sets that wait then are those
behind the one that gets its edges. -/
theorem Reported.numbered {s : StateSet} {source target : Nat} {keys : List (Nat × α)}
    (hr : Reported settings c []) (h : Coherent settings c (source + 1) keys)
    (hn : Numbered settings s c c' target) : Reported settings c'
      (c'.dfa.targetReport settings.progressInterval.toNat c'.dfa.met source target) := by
  cases hn with
  | known ht =>
    obtain ⟨hlt, _⟩ := Array.getElem?_eq_some_iff.mp ht
    rw [DFA.targetReport, if_pos (h.mem_met_iff.mpr hlt)]
    exact hr
  | new _ _ hg =>
    have hmet : c'.dfa.met = c.dfa.met := by rw [DFA.met, DFA.met, hg.edges]
    have hnew : c.discovered.size ∉ c.dfa.met :=
      fun hm => Nat.lt_irrefl _ (h.mem_met_iff.mp hm)
    have hpos : 0 < c.dfa.size := h.size ▸ h.mem_met_iff.mp List.mem_cons_self
    have hwait : c.pending.length + 1 = c.discovered.size - source := by
      have := h.taken_le
      rw [h.waiting, List.length_drop, Array.length_toList]
      omega
    rw [hmet, DFA.targetReport, if_neg hnew, Reported, hg.log, hr, List.append_nil,
      DFA.report_of_extends hg.states_extend hg.edges hg.alphabet hpos, hwait,
      discovery_eq (h.size ▸ hg.state)]

omit [DecidableEq α] in
/-- The edge is reported behind the state that it leads to. -/
theorem Reported.linked {source target : Nat} {a : α} (hl : Linked source a target c c')
    (hr : Reported settings c
      (c.dfa.targetReport settings.progressInterval.toNat c.dfa.met source target)) :
    Reported settings c' [] := by
  rw [Reported, hl.log, hr, DFA.report_push hl.states hl.edges hl.alphabet, List.append_nil,
    List.append_assoc]
  rfl

/-- Each step adds to the log what the report has for it. -/
theorem Step.reported (h : Step settings m now m') (hm : m.Invariant settings taken)
    (hr : m.Reported settings) : m'.Reported settings := by
  cases h with
  | discover hdiscover => exact .first (discover_first hdiscover).2.2
  | @setStart c _ dfa hset =>
    obtain ⟨hpos, hstates, hedges, halphabet⟩ := hm.setStart hset
    have hsame : dfa.report settings.progressInterval.toNat n.size =
        c.dfa.report settings.progressInterval.toNat n.size :=
      DFA.report_of_extends (hstates ▸ List.prefix_rfl) hedges halphabet hpos n.size
    exact hr.trans (congrArg (· ++ []) hsame.symm)
  | take => exact hr
  | number hnumber =>
    obtain ⟨_, _, _, _, hcoherent⟩ := hm
    exact Reported.numbered hr hcoherent (hcoherent.number_ok hnumber)
  | draw hlink => exact .linked (hm.drawable.linked hlink) hr
  | done => exact hr

theorem Course.reported (h : Course settings taken m) : m.Reported settings := by
  induction h with
  | opening => trivial
  | step hcourse hstep ih => exact hstep.reported hcourse.invariant ih

theorem finish_eq (h : c.finish = .ok c') :
    c' = c.report (.finished c.dfa.size c.dfa.edges.size) := by
  unfold finish at h
  split at h
  · cases h
  · cases h
    rfl

end Construction

namespace NFA

variable [DecidableEq α]

/-- The log of a conversion that succeeds, from its result. The edges of the result stand state by
state and letter by letter; they are reported in this order, and before an edge the state that it
leads to is reported if it is not the start and no edge before leads there. So the states are
reported one by one. -/
theorem determinize_log [Literal α] (n : NFA α) (settings : Settings) (d : DFA α)
    (h : (n.determinize settings).result = .ok d) :
    d.edges.toList.map Edge.key = Construction.layout n.alphabet d.size ∧
    (n.determinize settings).log.toList =
      .started n.size n.alphabet.length ::
        (d.discoveryReport settings.progressInterval.toNat 0 1 ++
          d.edgesReport settings.progressInterval.toNat [0] d.edges.toList) ++
        [.finished d.size (d.size * n.alphabet.length)] ∧
    (n.determinize settings).log.toList.filter Event.isDiscovery =
      d.states.map (fun s => .discovered s.name s.accepting) ∧
    (∀ states letters, (Event.started states letters : Event α).level = .debug) ∧
    (∀ name accepting, (Event.discovered name accepting : Event α).level = .debug ∧
      (Event.discovered name accepting : Event α).message = "Discovered meta-state") ∧
    (∀ discovered pending, (Event.progress discovered pending : Event α).level = .info) ∧
    (∀ source a target, (Event.transition source a target : Event α).level = .trace ∧
      (Event.transition source a target : Event α).message =
        source ++ " --- " ++ literal a ++ " --> " ++ target) ∧
    (∀ states edges, (Event.finished states edges : Event α).level = .debug ∧
      (Event.finished states edges : Event α).message = "Subset construction finished") := by
  obtain ⟨c, hr, rfl⟩ := run_of_determinize h
  obtain ⟨taken, c', hcourse, hp, hfinish⟩ := Construction.course_of_run hr
  obtain ⟨count, _, hcoherent⟩ := hcourse.invariant
  have hfinished := hcoherent.finished hp
  obtain rfl := Construction.finish_eq hfinish
  have hlog : (n.determinize settings).log.toList = c'.log.toList ++
      [.finished c'.dfa.size c'.dfa.edges.size] := by
    rw [determinize, hr]
    exact Array.toList_push
  have hreported : c'.log.toList = c'.dfa.report settings.progressInterval.toNat n.size ++ [] :=
    hcourse.reported
  have hannounced : c'.log.toList.filter Event.isDiscovery = _ := hcourse.announced
  have hsize := hfinished.breadthFirst.edges_size
  rw [hfinished.alphabet] at hsize
  refine ⟨?_, ?_, ?_, fun _ _ => rfl, fun _ _ => ⟨rfl, rfl⟩, fun _ _ => rfl,
    fun _ _ _ => ⟨rfl, rfl⟩, fun _ _ => ⟨rfl, rfl⟩⟩
  · exact hfinished.alphabet ▸ hfinished.breadthFirst.keys_eq
  · rw [hlog, hreported, List.append_nil, DFA.report, hfinished.alphabet, hsize]
    rfl
  · rw [hlog, List.filter_append, hannounced]
    exact List.append_nil _

/-- Of three states the second is one after which progress is reported. -/
theorem determinize_log_lasso :
    ∃ d, (lasso.determinize { progressInterval := 2 }).result = .ok d ∧
      (lasso.determinize { progressInterval := 2 }).log.toList =
        .started 3 2 :: (d.discoveryReport 2 0 1 ++ d.edgesReport 2 [0] d.edges.toList) ++
          [.finished 3 6] ∧
      (lasso.determinize { progressInterval := 2 }).log.toList.filter Event.isDiscovery =
        [.discovered "[p, q]" false, .discovered "[r]" true, .discovered "[]" false] := by
  have hstates : (lasso.determinize { progressInterval := 2 }).result.toOption.map (fun d =>
      d.states.map fun s => (Event.discovered s.name s.accepting : Event Char)) =
        some [.discovered "[p, q]" false, .discovered "[r]" true, .discovered "[]" false] := by
    decide +kernel
  cases h : (lasso.determinize { progressInterval := 2 }).result with
  | error failure =>
    rw [h] at hstates
    cases hstates
  | ok d =>
    obtain ⟨_, hlog, hdiscovered, _⟩ := determinize_log lasso { progressInterval := 2 } d h
    rw [h] at hstates
    have hstates := Option.some.inj hstates
    have hsize : d.size = 3 := by
      have hlength := congrArg List.length hstates
      rwa [List.length_map, Diagram.length_states] at hlength
    have hletters : lasso.alphabet.length = 2 := by decide +kernel
    have hcount : lasso.size = 3 := by decide +kernel
    rw [hsize, hletters, hcount] at hlog
    exact ⟨d, rfl, hlog, hdiscovered.trans hstates⟩

end NFA

end Automata
