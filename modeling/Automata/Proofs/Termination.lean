import Automata.Proofs.Safety

namespace Automata

variable {α : Type} [DecidableEq α] {n : NFA α}

namespace Construction

def Moment.current : Moment n → Construction n
  | .opening _ _ => begin n
  | .opened c _ => c
  | .head c => c
  | .expanding c _ _ _ => c
  | .drawing c _ _ _ _ _ => c

/-- How many steps there are to the moment at which the next set is taken. -/
def Moment.delay : Moment n → Nat
  | .opening _ _ => 2
  | .opened _ _ => 1
  | .head _ => 0
  | .expanding _ _ _ letters => 2 * letters.length + 1
  | .drawing _ _ _ _ _ letters => 2 * letters.length + 2

/-- How many steps there can be at most: a set that is taken brings two for each letter, one that
takes it and one that ends its turn. -/
def Moment.rank (m : Moment n) : Nat :=
  m.current.remaining * (2 * n.alphabet.length + 2) + m.delay

variable {settings : Settings} {taken now : List StateSet} {m m' : Moment n}

omit [DecidableEq α] in
theorem remaining_take {c : Construction n} {s : StateSet} {rest : List StateSet}
    (hp : c.pending = s :: rest) : c.remaining = { c with pending := rest }.remaining + 1 := by
  simp [remaining, hp]
  omega

/-- Each step uses up a set still to be discovered, or a pending one, or a letter. -/
theorem Step.rank_lt (h : Step settings m now m') : m'.rank < m.rank := by
  cases h with
  | discover hdiscover =>
    simp only [Moment.rank, Moment.current, Moment.delay, remaining_discover hdiscover]
    omega
  | setStart => exact Nat.lt_succ_self _
  | take hp =>
    simp only [Moment.rank, Moment.current, Moment.delay, remaining_take hp, Nat.succ_mul]
    omega
  | number hnumber =>
    simp only [Moment.rank, Moment.current, Moment.delay, remaining_number hnumber,
      List.length_cons]
    omega
  | draw hlink =>
    simp only [Moment.rank, Moment.current, Moment.delay, remaining_link hlink]
    omega
  | done => exact Nat.lt_succ_self _

/-- Steps cannot follow each other without end. -/
theorem step_wellFounded (n : NFA α) (settings : Settings) :
    WellFounded fun m' m : Moment n => ∃ now, Step settings m now m' :=
  Subrelation.wf (fun ⟨_, hstep⟩ => hstep.rank_lt) (measure Moment.rank).wf

/-- A course goes on until no set waits or the limit is met. -/
theorem Course.completes (h : Course settings taken m) :
    ∃ rest m', Course settings (taken ++ rest) m' ∧
      Relation.ReflTransGen (fun m m' => ∃ now, Step settings m now m') m m' ∧
      (m'.Last ∨ m'.Full settings) := by
  induction m using (step_wellFounded n settings).induction generalizing taken with
  | _ m ih =>
    rcases h.invariant.progress with hlast | hfull | ⟨now, next, hstep⟩
    · exact ⟨[], m, (List.append_nil taken).symm ▸ h, .refl, .inl hlast⟩
    · exact ⟨[], m, (List.append_nil taken).symm ▸ h, .refl, .inr hfull⟩
    · obtain ⟨rest, m', hcourse, hpath, hend⟩ := ih next ⟨now, hstep⟩ (h.step hstep)
      exact ⟨now ++ rest, m', List.append_assoc .. ▸ hcourse, .head ⟨now, hstep⟩ hpath, hend⟩

/-- The sets that were taken and those that wait are the discovered ones. They all arise, and
there are no more of them than the limit allows. -/
structure Accounted (settings : Settings) (taken : List StateSet) (c : Construction n) :
    Prop where
  queue : taken ++ c.pending = c.discovered.toList
  arises : ∀ s ∈ c.discovered, n.Arises s
  within : ∀ max, settings.maxStates = some max → c.discovered.size ≤ max.toNat

variable {c c' : Construction n} {count : Nat} {keys : List (Nat × α)}

theorem Sound.accounted (h : Sound settings c count keys)
    (arises : ∀ s ∈ c.discovered, n.Arises s) :
    Accounted settings (c.discovered.toList.take count) c where
  queue := by rw [h.waiting, List.take_append_drop]
  arises := arises
  within := h.within

theorem Numbered.arises {s : StateSet} {t : Nat} (h : Numbered settings s c c' t)
    (hs : n.Arises s) (arises : ∀ s ∈ c.discovered, n.Arises s) :
    ∀ s ∈ c'.discovered, n.Arises s := by
  cases h with
  | known => exact arises
  | new _ _ hg => exact hg.arises hs arises

/-- At the first moment there is nothing to account for, and at the second only the first set. -/
theorem Moment.Invariant.accounted (h : m.Invariant settings taken) :
    Accounted settings taken m.current := by
  cases m with
  | opening i hi =>
    obtain rfl : taken = [] := h
    exact ⟨rfl, by simp [current, begin], fun _ _ => Nat.zero_le _⟩
  | opened c start =>
    obtain ⟨rfl, _, room, i, hi, hg⟩ := h
    have hnone : ∀ t ∈ (begin n).discovered, n.Arises t :=
      fun t ht => absurd ht (not_mem_begin t)
    refine ⟨?_, hg.arises (.first hi) hnone, hg.within room⟩
    change c.pending = c.discovered.toList
    rw [hg.pending, hg.discovered]
    rfl
  | head c =>
    obtain ⟨count, rfl, hcoherent⟩ := h
    exact hcoherent.accounted hcoherent.arises_of_mem
  | expanding c s source letters =>
    obtain ⟨rfl, _, _, _, hcoherent⟩ := h
    exact hcoherent.accounted hcoherent.arises_of_mem
  | drawing c s source a target letters =>
    obtain ⟨rfl, c₀, before, halphabet, hs, hcoherent, hn⟩ := h
    have ha : a ∈ n.alphabet := by simp [halphabet]
    exact (hcoherent.toSound.numbered hn).accounted
      (hn.arises ((hcoherent.arises hs).follow ha) hcoherent.arises_of_mem)

theorem Accounted.length_le (h : Accounted settings taken c) :
    taken.length ≤ c.discovered.size := by
  rw [← Array.length_toList, ← h.queue, List.length_append]
  exact Nat.le_add_right _ _

/-- When no set waits, the completeness of the result is all that is looked at. -/
theorem Moment.Invariant.resume_last (h : m.Invariant settings taken) (hlast : m.Last) :
    m.resume settings =
      .ok (m.current.report (.finished m.current.dfa.size m.current.dfa.edges.size)) := by
  cases m with
  | head c =>
    change explore settings c >>= finish = _
    rw [explore_nil hlast]
    change finish c = _
    unfold finish DFA.requireComplete
    rw [h.safe.2 hlast]
    rfl
  | _ => exact hlast.elim

omit [DecidableEq α] in
theorem exists_limit_of_not_room (h : ¬ Room settings c) :
    ∃ max, settings.maxStates = some max ∧ max.toNat ≤ c.discovered.size :=
  (room_or_full settings c).resolve_left h

/-- When the limit leaves no room for the next set, the limit is all that is reported. -/
theorem Moment.Invariant.resume_full (h : m.Invariant settings taken) (hfull : m.Full settings) :
    ∃ max, settings.maxStates = some max ∧ m.current.discovered.size = max.toNat ∧
      m.resume settings = .error ⟨m.current.log.push (.limitReached max.toNat),
        .refused (.limitExceeded (max.toNat + 1) max.toNat)⟩ := by
  have hsize : ∀ {max : UInt64}, settings.maxStates = some max →
      max.toNat ≤ m.current.discovered.size → m.current.discovered.size = max.toNat :=
    fun hm hle => Nat.le_antisymm (h.accounted.within _ hm) hle
  cases m with
  | opening i hi =>
    obtain ⟨max, hm, hle⟩ := exists_limit_of_not_room hfull
    refine ⟨max, hm, hsize hm hle, ?_⟩
    simp only [Moment.resume, launch]
    rw [discover_full hm hle, ← hsize hm hle]
    rfl
  | expanding c s source letters =>
    cases letters with
    | nil => exact hfull.elim
    | cons a letters =>
      obtain ⟨fresh, hroom⟩ := hfull
      obtain ⟨max, hm, hle⟩ := exists_limit_of_not_room hroom
      refine ⟨max, hm, hsize hm hle, ?_⟩
      simp only [Moment.resume, List.foldlM_cons, connect]
      rw [number_new fresh, discover_full hm hle, ← hsize hm hle]
      rfl
  | _ => exact hfull.elim

end Construction

namespace NFA

/-- A conversion terminates: without a start state at once, and from one because no steps go on for
ever and some course leads to a moment at which no set waits or to the limit. At every moment the
sets that were taken and those that wait are the discovered ones, each once, so that as many are
taken as there are sets of states at most, and no more than the limit allows. -/
theorem determinize_terminates (n : NFA α) (settings : Settings) :
    (n.start = none → (n.determinize settings).result = .error (.refused .missingStart)) ∧
    (WellFounded fun m' m : Construction.Moment n => ∃ now, Construction.Step settings m now m') ∧
    (n.start ≠ none → ∃ taken, ∃ m : Construction.Moment n, Construction.Course settings taken m ∧
      (m.Last ∧ (∃ c, Construction.run n settings = .ok c) ∨
        m.Full settings ∧ ∃ halt, Construction.run n settings = .error halt)) ∧
    ∀ taken (m : Construction.Moment n), Construction.Course settings taken m →
      taken ++ m.current.pending = m.current.discovered.toList ∧
      m.current.discovered.toList.Nodup ∧
      (∀ s ∈ m.current.discovered, n.Arises s) ∧
      taken.length ≤ 2 ^ n.size ∧ m.current.discovered.size ≤ 2 ^ n.size ∧
      ∀ max, settings.maxStates = some max →
        taken.length ≤ max.toNat ∧ m.current.discovered.size ≤ max.toNat := by
  refine ⟨n.determinize_missingStart settings, Construction.step_wellFounded n settings, ?_, ?_⟩
  · intro hstart
    obtain ⟨i, hi⟩ := Option.ne_none_iff_exists'.mp hstart
    obtain ⟨taken, m, hcourse, _, hend⟩ := (Construction.Course.opening hi).completes
    refine ⟨taken, m, hcourse, ?_⟩
    rw [hcourse.run_eq]
    rcases hend with hlast | hfull
    · exact .inl ⟨hlast, _, hcourse.invariant.resume_last hlast⟩
    · obtain ⟨max, _, _, hrefused⟩ := hcourse.invariant.resume_full hfull
      exact .inr ⟨hfull, _, hrefused⟩
  · intro taken m hcourse
    have h := hcourse.invariant.accounted
    have hsize : m.current.discovered.size ≤ 2 ^ n.size := m.current.size_le
    refine ⟨h.queue, m.current.distinct, h.arises, h.length_le.trans hsize, hsize, ?_⟩
    exact fun max hm => ⟨h.length_le.trans (h.within max hm), h.within max hm⟩

end NFA

end Automata
