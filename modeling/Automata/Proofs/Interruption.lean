import Automata.Proofs.Report

namespace Automata

def Settings.unlimited (settings : Settings) : Settings :=
  { settings with maxStates := none }

/-- A log that ends where the other goes on to the discovery after so many, with a warning in place
of it. -/
def CutShort {α : Type} (max : Nat) (full short : List (Event α)) : Prop :=
  ∃ before name accepting after, full = before ++ .discovered name accepting :: after ∧
    before.countP Event.isDiscovery = max ∧ short = before ++ [.limitReached max]

namespace Construction

variable {α : Type} {n : NFA α} {settings : Settings} {c c' : Construction n} {s : StateSet}

/-- What the limit allows is done without it. -/
theorem discover_unlimited {fresh : s ∉ c.discovered} {bounded : ∀ i ∈ s, i < n.size} {t : Nat}
    (h : c.discover settings s fresh bounded = .ok (c', t)) :
    c.discover settings.unlimited s fresh bounded = .ok (c', t) := by
  unfold discover at h
  split at h
  · cases h
  · exact h

theorem number_unlimited {bounded : ∀ i ∈ s, i < n.size} {t : Nat}
    (h : c.number settings s bounded = .ok (c', t)) :
    c.number settings.unlimited s bounded = .ok (c', t) := by
  by_cases hs : s ∈ c.discovered
  · obtain ⟨i, hknown⟩ := Array.mem_iff_getElem?.mp hs
    rw [number_known hknown] at h ⊢
    exact h
  · rw [number_new hs] at h ⊢
    exact discover_unlimited h

/-- The report of a discovery comes next in every log that goes on from there. -/
theorem Grown.exists_after (h : Grown settings s c c') {log : List (Event α)}
    (hlog : c'.log.toList <+: log) : ∃ after,
      log = c.log.toList ++ .discovered (n.stateFor s).name (n.stateFor s).accepting :: after := by
  obtain ⟨after, rfl⟩ := hlog
  rw [h.log, discovery, List.append_assoc, List.cons_append]
  exact ⟨_, rfl⟩

theorem discovery_level_ne_warn (s : StateSet) (discovered pending : Nat) :
    ∀ e ∈ discovery n settings s discovered pending, e.level ≠ .warn := by
  unfold discovery
  split <;> simp [Event.level]

/-- What is logged on the way is no warning. -/
theorem Change.level_ne_warn (h : Change settings c c')
    (hc : ∀ e ∈ c.log.toList, e.level ≠ .warn) : ∀ e ∈ c'.log.toList, e.level ≠ .warn := by
  intro e he
  cases h with
  | quiet _ _ _ hlog => exact hc e (hlog ▸ he)
  | grown hg =>
    rw [hg.log] at he
    exact (List.mem_append.mp he).elim (hc e) (discovery_level_ne_warn _ _ _ e)
  | linked hl =>
    rw [hl.log] at he
    rcases List.mem_append.mp he with he | he
    · exact hc e he
    · obtain rfl := List.mem_singleton.mp he
      exact nofun

variable [DecidableEq α] {taken now : List StateSet} {m m' : Moment n}

theorem Step.unlimited (h : Step settings m now m') : Step settings.unlimited m now m' := by
  cases h with
  | discover hdiscover => exact .discover (discover_unlimited hdiscover)
  | setStart hset => exact .setStart hset
  | take hp hs => exact .take hp hs
  | number hnumber => exact .number (number_unlimited hnumber)
  | draw hlink => exact .draw hlink
  | done => exact .done

/-- A conversion with a limit passes through moments of the one without. -/
theorem Course.unlimited (h : Course settings taken m) : Course settings.unlimited taken m := by
  induction h with
  | opening h => exact .opening h
  | step _ hstep ih => exact ih.step hstep.unlimited

/-- Nothing but the limit is warned of. -/
theorem Course.level_ne_warn (h : Course settings taken m) :
    ∀ e ∈ m.current.log.toList, e.level ≠ .warn := by
  induction h with
  | opening =>
    intro e he
    obtain rfl := List.mem_singleton.mp he
    exact nofun
  | step hcourse hstep ih => exact (hstep.change hcourse.invariant).level_ne_warn ih

theorem Course.log_extends (h : Course settings taken m)
    (hpath : Relation.ReflTransGen (fun m m' => ∃ now, Step settings m now m') m m') :
    m.current.log.toList <+: m'.current.log.toList := by
  induction hpath using Relation.ReflTransGen.head_induction_on generalizing taken with
  | refl => exact List.prefix_rfl
  | head hstep _ ih =>
    obtain ⟨now, hstep⟩ := hstep
    exact (hstep.change h.invariant).log_extends.trans (ih (h.step hstep))

theorem Moment.Invariant.size (h : m.Invariant settings taken) :
    m.current.dfa.size = m.current.discovered.size := by
  cases m with
  | opening => rfl
  | opened c start =>
    obtain ⟨_, _, _, _, _, hg⟩ := h
    change c.dfa.size = c.discovered.size
    rw [← Diagram.length_states, hg.states, hg.discovered]
    rfl
  | head =>
    obtain ⟨_, _, hcoherent⟩ := h
    exact hcoherent.size
  | expanding =>
    obtain ⟨_, _, _, _, hcoherent⟩ := h
    exact hcoherent.size
  | drawing =>
    obtain ⟨_, _, _, _, _, hcoherent, hn⟩ := h
    exact (hcoherent.toSound.numbered hn).size

/-- There are as many discoveries in the log as sets that are discovered. -/
theorem Course.countP_discovery (h : Course settings taken m) :
    m.current.log.toList.countP Event.isDiscovery = m.current.discovered.size := by
  have hannounced : m.current.log.toList.filter Event.isDiscovery = _ := h.announced
  rw [List.countP_eq_length_filter, hannounced, List.length_map, Diagram.length_states,
    h.invariant.size]

/-- Without a limit there is always room. -/
theorem Moment.Invariant.not_full (h : m.Invariant settings.unlimited taken) :
    ¬ m.Full settings.unlimited := by
  intro hfull
  obtain ⟨_, hlimit, _⟩ := h.resume_full hfull
  cases hlimit

/-- Where the limit leaves no room, a set is discovered next without it. -/
theorem Course.discovers (h : Course settings taken m) (hfull : m.Full settings) :
    ∃ s now m', Step settings.unlimited m now m' ∧
      Grown settings.unlimited s m.current m'.current := by
  have hm := h.unlimited.invariant
  rcases hm.progress with hlast | hfull' | ⟨now, m', hstep⟩
  · cases m with
    | head => exact hfull.elim
    | _ => exact hlast.elim
  · exact absurd hfull' hm.not_full
  · cases hstep with
    | discover hdiscover => exact ⟨_, _, _, .discover hdiscover, (discover_first hdiscover).2.2⟩
    | number hnumber =>
      obtain ⟨_, _, _, _, hcoherent⟩ := hm
      cases hcoherent.number_ok hnumber with
      | known ht => exact absurd (Array.mem_of_getElem? ht) hfull.1
      | new _ _ hg => exact ⟨_, _, _, .number hnumber, hg⟩
    | _ => exact hfull.elim

/-- A conversion without a limit goes on to its end from each of its moments. -/
theorem Course.run_unlimited (h : Course settings.unlimited taken m) :
    ∃ c, run n settings.unlimited = .ok c ∧ m.current.log.toList <+: c.log.toList := by
  obtain ⟨_, m', hcourse, hpath, hlast | hfull⟩ := h.completes
  · refine ⟨_, hcourse.run_eq.trans (hcourse.invariant.resume_last hlast), ?_⟩
    rw [report, Array.toList_push]
    exact (h.log_extends hpath).trans (List.prefix_append _ _)
  · exact absurd hfull hcourse.invariant.not_full

/-- A conversion with a limit comes to what the one without comes to, or the limit cuts it short. -/
theorem run_limited (settings : Settings) (hstart : n.start ≠ none) :
    ∃ c, run n settings.unlimited = .ok c ∧
      (run n settings = .ok c ∨ ∃ max halt, settings.maxStates = some max ∧
        run n settings = .error halt ∧ CutShort max.toNat c.log.toList halt.log.toList) := by
  obtain ⟨i, hi⟩ := Option.ne_none_iff_exists'.mp hstart
  obtain ⟨_, m, hcourse, _, hlast | hfull⟩ := (Course.opening hi).completes
  · exact ⟨_, hcourse.unlimited.run_eq.trans (hcourse.unlimited.invariant.resume_last hlast),
      .inl (hcourse.run_eq.trans (hcourse.invariant.resume_last hlast))⟩
  · obtain ⟨max, hm, hsize, hrefused⟩ := hcourse.invariant.resume_full hfull
    obtain ⟨s, now, m', hstep, hg⟩ := hcourse.discovers hfull
    obtain ⟨c, hrun, hlog⟩ := (hcourse.unlimited.step hstep).run_unlimited
    obtain ⟨after, hafter⟩ := hg.exists_after hlog
    exact ⟨c, hrun, .inr ⟨max, _, hm, hcourse.run_eq.trans hrefused, _, _, _, after, hafter,
      hcourse.countP_discovery.trans hsize, Array.toList_push⟩⟩

theorem level_ne_warn_of_run {c : Construction n} (h : run n settings = .ok c) :
    ∀ e ∈ c.log, e.level ≠ .warn := by
  obtain ⟨taken, c', hcourse, _, hfinish⟩ := course_of_run h
  obtain rfl := finish_eq hfinish
  intro e he
  rcases Array.mem_push.mp he with he | rfl
  · exact hcourse.level_ne_warn e (Array.mem_toList_iff.mpr he)
  · exact nofun

end Construction

namespace NFA

variable {α : Type} [DecidableEq α]

/-- The log of a conversion with a limit, from the log of the one without. If the limit allows all
states the logs are the same. Otherwise the first ends where one state more than the limit allows
would be reported, with a warning in place of that report, and it is the only warning. -/
theorem determinize_limited_log (n : NFA α) (interval max : UInt64) (hstart : n.start ≠ none) :
    ∃ d, (n.determinize ⟨none, interval⟩).result = .ok d ∧
      (∀ e ∈ (n.determinize ⟨none, interval⟩).log, e.level ≠ .warn) ∧
      (Event.limitReached max.toNat : Event α).level = .warn ∧
      (d.size ≤ max.toNat →
        (n.determinize ⟨some max, interval⟩).log = (n.determinize ⟨none, interval⟩).log) ∧
      (max.toNat < d.size → CutShort max.toNat (n.determinize ⟨none, interval⟩).log.toList
        (n.determinize ⟨some max, interval⟩).log.toList) := by
  obtain ⟨c, hr, hlimited⟩ := Construction.run_limited ⟨some max, interval⟩ hstart
  have hends := Construction.run_ends ⟨some max, interval⟩ hstart
  have hfinished := Construction.run_ends ⟨none, interval⟩ hstart
  simp only [Settings.unlimited] at hr
  rw [hr] at hfinished
  refine ⟨c.dfa, by rw [determinize, hr], ?_, rfl, ?_⟩
  · rw [determinize, hr]
    exact Construction.level_ne_warn_of_run hr
  · rcases hlimited with hr' | ⟨limit, halt, hm, hr', hcut⟩
    · rw [hr'] at hends
      have hle : c.dfa.size ≤ max.toNat := hends.size ▸ hends.within max rfl
      rw [determinize, determinize, hr, hr']
      exact ⟨fun _ => rfl, fun hlt => absurd hle (Nat.not_le.mpr hlt)⟩
    · obtain rfl := Option.some.inj hm
      rw [hr'] at hends
      obtain ⟨_, hm', hlt, _⟩ := hends.lt_ncard_subsets
      obtain rfl := Option.some.inj hm'
      rw [hfinished.ncard_subsets] at hlt
      rw [determinize, determinize, hr, hr']
      exact ⟨fun hle => absurd hle (Nat.not_le.mpr hlt), fun _ => hcut⟩

/-- Three states: a limit of three changes nothing, a limit of two stops the conversion after its
first edge, and a limit of none before there is a state. -/
theorem determinize_limited_log_lasso :
    (lasso.determinize ⟨some 3, 2⟩).log = (lasso.determinize ⟨none, 2⟩).log ∧
    CutShort 2 (lasso.determinize ⟨none, 2⟩).log.toList
      (lasso.determinize ⟨some 2, 2⟩).log.toList ∧
    CutShort 0 (lasso.determinize ⟨none, 2⟩).log.toList
      (lasso.determinize ⟨some 0, 2⟩).log.toList ∧
    (lasso.determinize ⟨some 2, 2⟩).log.toList = [.started 3 2, .discovered "[p, q]" false,
      .discovered "[r]" true, .progress 2 1, .transition "[p, q]" 'a' "[r]", .limitReached 2] := by
  have hstart : lasso.start ≠ none := by decide +kernel
  obtain ⟨base, hbase⟩ := lasso_determinize
  have hsize : ∀ {d : DFA Char}, (lasso.determinize ⟨none, 2⟩).result = .ok d → d.size = 3 := by
    intro d hd
    rw [determinize_same _ _ hd hbase, lasso_size hbase]
  obtain ⟨d, hd, _, _, hsame, _⟩ := determinize_limited_log lasso 2 3 hstart
  obtain ⟨e, he, _, _, _, htwo⟩ := determinize_limited_log lasso 2 2 hstart
  obtain ⟨f, hf, _, _, _, hnone⟩ := determinize_limited_log lasso 2 0 hstart
  refine ⟨hsame (hsize hd).le, htwo ?_, hnone ?_, by decide +kernel⟩
  · rw [hsize he]
    decide
  · rw [hsize hf]
    decide

end NFA

end Automata
