import Automata.Proofs.Outcome

namespace Automata.Construction

variable {α : Type} [DecidableEq α]

/-- What a conversion is about to do. -/
inductive Moment (n : NFA α) where
  /-- The closure of the start state is discovered next. -/
  | opening (i : Nat) (h : n.start = some i)
  /-- The first set is discovered, and its state is made the start next. -/
  | opened (c : Construction n) (start : Nat)
  /-- The next set is taken, or none waits any more. -/
  | head (c : Construction n)
  /-- The set with the number `source` gets its edges for these letters. -/
  | expanding (c : Construction n) (s : StateSet) (source : Nat) (letters : List α)
  /-- The set that follows has its number, and the edge to it is drawn next. -/
  | drawing (c : Construction n) (s : StateSet) (source : Nat) (a : α) (target : Nat)
      (letters : List α)

variable {n : NFA α}

/-- From one moment to the next, with the sets that are taken meanwhile. -/
inductive Step (settings : Settings) : Moment n → List StateSet → Moment n → Prop
  | discover {i : Nat} {h : n.start = some i} {fresh : n.closure [i] ∉ (begin n).discovered}
      {bounded : ∀ j ∈ n.closure [i], j < n.size} {c : Construction n} {start : Nat} :
      (begin n).discover settings (n.closure [i]) fresh bounded = .ok (c, start) →
      Step settings (.opening i h) [] (.opened c start)
  | setStart {c : Construction n} {start : Nat} {dfa : DFA α} :
      c.dfa.setStart start = .ok dfa → Step settings (.opened c start) [] (.head { c with dfa })
  | take {c : Construction n} {s : StateSet} {rest : List StateSet} {source : Nat} :
      c.pending = s :: rest → c.discovered.findIdx? (· = s) = some source →
      Step settings (.head c) [s] (.expanding { c with pending := rest } s source n.alphabet)
  | number {c c' : Construction n} {s : StateSet} {source target : Nat} {a : α}
      {letters : List α} :
      c.number settings (n.follow s a) NFA.mem_follow_lt = .ok (c', target) →
      Step settings (.expanding c s source (a :: letters)) []
        (.drawing c' s source a target letters)
  | draw {c c' : Construction n} {s : StateSet} {source target : Nat} {a : α}
      {letters : List α} :
      c.link source a target = .ok c' →
      Step settings (.drawing c s source a target letters) [] (.expanding c' s source letters)
  | done {c : Construction n} {s : StateSet} {source : Nat} :
      Step settings (.expanding c s source []) [] (.head c)

/-- The moments that a conversion passes through, with the sets that it has taken until then. -/
inductive Course (settings : Settings) : List StateSet → Moment n → Prop
  | opening {i : Nat} (h : n.start = some i) : Course settings [] (.opening i h)
  | step {taken now : List StateSet} {m m' : Moment n} :
      Course settings taken m → Step settings m now m' → Course settings (taken ++ now) m'

/-- What the rest of the conversion comes to. -/
def Moment.resume (settings : Settings) : Moment n → Except (Halt α) (Construction n)
  | .opening _ h => launch settings h >>= explore settings >>= finish
  | .opened c start =>
    (do let dfa ← c.attempt (c.dfa.setStart start); return { c with dfa }) >>=
      explore settings >>= finish
  | .head c => explore settings c >>= finish
  | .expanding c s source letters =>
    letters.foldlM (connect settings s source) c >>= explore settings >>= finish
  | .drawing c s source a target letters =>
    c.link source a target >>= letters.foldlM (connect settings s source) >>= explore settings >>=
      finish

variable {settings : Settings} {taken now : List StateSet} {m m' : Moment n}

theorem expand_eq {c : Construction n} {s : StateSet} {source : Nat}
    (h : c.discovered.findIdx? (· = s) = some source) :
    c.expand settings s = n.alphabet.foldlM (connect settings s source) c := by
  unfold expand
  rw [h]

theorem connect_eq {c c' : Construction n} {s : StateSet} {source target : Nat} {a : α}
    (h : c.number settings (n.follow s a) NFA.mem_follow_lt = .ok (c', target)) :
    connect settings s source c a = c'.link source a target := by
  unfold connect
  rw [h]
  rfl

/-- A step is a part of the conversion. -/
theorem Step.resume_eq (h : Step settings m now m') : m.resume settings = m'.resume settings := by
  cases h with
  | discover hdiscover =>
    simp only [Moment.resume, launch]
    rw [hdiscover]
    rfl
  | setStart hset =>
    simp only [Moment.resume]
    rw [hset]
    rfl
  | @take c s rest source hp hs =>
    simp only [Moment.resume]
    rw [explore_cons hp, expand_eq (c := { c with pending := rest }) hs]
  | number hnumber =>
    simp only [Moment.resume]
    rw [List.foldlM_cons, connect_eq hnumber]
  | draw hlink =>
    simp only [Moment.resume]
    rw [hlink]
    rfl
  | done => rfl

/-- The moments are those of the conversion: from each of them it ends as it does from the start. -/
theorem Course.run_eq (h : Course settings taken m) : run n settings = m.resume settings := by
  induction h with
  | @opening i hi =>
    unfold run
    split
    · rename_i hnone
      rw [hi] at hnone
      cases hnone
    · rename_i j hj
      obtain rfl := Option.some.inj (hi.symm.trans hj)
      exact (bind_assoc ..).symm
  | step _ hstep ih => exact ih.trans hstep.resume_eq

/-- A step during which no set is taken. -/
theorem Course.next (h : Course settings taken m) (hstep : Step settings m [] m') :
    Course settings taken m' :=
  List.append_nil taken ▸ h.step hstep

/-- The letters of a turn are steps of their own, and together they lead to the next head. -/
theorem Course.letters {c c' : Construction n} {s : StateSet} {source : Nat} {letters : List α}
    (h : Course settings taken (.expanding c s source letters))
    (hfold : letters.foldlM (connect settings s source) c = .ok c') :
    Course settings taken (.head c') := by
  induction letters generalizing c with
  | nil =>
    cases hfold
    exact h.next .done
  | cons a letters ih =>
    obtain ⟨c₂, hconnect, hfold⟩ := bind_eq_ok.mp hfold
    obtain ⟨⟨c₁, target⟩, hnumber, hlink⟩ := bind_eq_ok.mp hconnect
    exact ih ((h.next (.number hnumber)).next (.draw hlink)) hfold

/-- The loop comes to its head for the first time. -/
theorem Course.of_launch {i : Nat} {h : n.start = some i} {c : Construction n}
    (hlaunch : launch settings h = .ok c) : Course settings [] (.head c) := by
  obtain ⟨⟨c₁, start⟩, hdiscover, hlaunch⟩ := bind_eq_ok.mp hlaunch
  obtain ⟨dfa, hset, hlaunch⟩ := bind_eq_ok.mp hlaunch
  cases hlaunch
  have hopened := (Course.opening h).next (.discover hdiscover)
  exact hopened.next (.setStart (attempt_eq_ok.mp hset))

/-- The loop comes to its head again. -/
theorem Course.expand {c c' : Construction n} {s : StateSet} {rest : List StateSet}
    (h : Course settings taken (.head c)) (hp : c.pending = s :: rest)
    (hexpand : { c with pending := rest }.expand settings s = .ok c') :
    Course settings (taken ++ [s]) (.head c') := by
  unfold Construction.expand at hexpand
  split at hexpand
  · cases hexpand
  · rename_i source hs
    exact (h.step (.take hp hs)).letters hexpand

theorem Course.explore {c c' : Construction n} (h : Course settings taken (.head c))
    (hexplore : explore settings c = .ok c') :
    ∃ taken', Course settings taken' (.head c') ∧ c'.pending = [] := by
  fun_induction Construction.explore settings c generalizing taken with
  | case1 c hp =>
    cases hexplore
    exact ⟨taken, h, hp⟩
  | case2 c s rest hp halt he => cases hexplore
  | case3 c s rest hp c₁ he ih => exact ih (h.expand hp he) hexplore

/-- A conversion that succeeds passes through its moments up to the last one. -/
theorem course_of_run {c : Construction n} (h : run n settings = .ok c) :
    ∃ taken c', Course settings taken (.head c') ∧ c'.pending = [] ∧ c'.finish = .ok c := by
  unfold run at h
  split at h
  · cases h
  · rename_i i hi
    obtain ⟨c₁, hlaunch, h⟩ := bind_eq_ok.mp h
    obtain ⟨c', hexplore, hfinish⟩ := bind_eq_ok.mp h
    obtain ⟨taken, hcourse, hp⟩ := (Course.of_launch hlaunch).explore hexplore
    exact ⟨taken, c', hcourse, hp, hfinish⟩

/-- What holds at each moment. The sets that were taken are the first ones that were discovered, and
the edges drawn so far are those of the sets taken before and of the letters gone through. -/
def Moment.Invariant (settings : Settings) (taken : List StateSet) : Moment n → Prop
  | .opening _ _ => taken = []
  | .opened c start => taken = [] ∧ start = 0 ∧ Room settings (begin n) ∧
    ∃ i, n.start = some i ∧ Grown settings (n.closure [i]) (begin n) c
  | .head c => ∃ count, taken = c.discovered.toList.take count ∧
    Coherent settings c count (layout n.alphabet count)
  | .expanding c s source letters => taken = c.discovered.toList.take (source + 1) ∧
    c.discovered[source]? = some s ∧ ∃ before, n.alphabet = before ++ letters ∧
      Coherent settings c (source + 1) (layout n.alphabet source ++ before.map (source, ·))
  | .drawing c s source a target letters => taken = c.discovered.toList.take (source + 1) ∧
    ∃ c₀ before, n.alphabet = before ++ a :: letters ∧ c₀.discovered[source]? = some s ∧
      Coherent settings c₀ (source + 1) (layout n.alphabet source ++ before.map (source, ·)) ∧
      Numbered settings (n.follow s a) c₀ c target

/-- The first set gets the number 0 and is the only one that was discovered. -/
theorem discover_first {i : Nat} {fresh : n.closure [i] ∉ (begin n).discovered}
    {bounded : ∀ j ∈ n.closure [i], j < n.size} {c : Construction n} {start : Nat}
    (h : (begin n).discover settings (n.closure [i]) fresh bounded = .ok (c, start)) :
    start = 0 ∧ Room settings (begin n) ∧ Grown settings (n.closure [i]) (begin n) c := by
  rcases room_or_full settings (begin n) with room | ⟨max, hm, hfull⟩
  · obtain ⟨c', hc', hg⟩ := discover_begin fresh bounded room
    cases h.symm.trans hc'
    exact ⟨rfl, room, hg⟩
  · rw [discover_full hm hfull] at h
    cases h

theorem Moment.Invariant.drawable {c : Construction n} {s : StateSet} {source target : Nat} {a : α}
    {letters : List α}
    (h : (Moment.drawing c s source a target letters).Invariant settings taken) :
    Drawable c source a target := by
  obtain ⟨_, c₀, before, halphabet, hs, hcoherent, hn⟩ := h
  exact hcoherent.drawable hs (by simp [halphabet]) (next_key_fresh n.alphabet_nodup halphabet) hn

/-- Each step keeps the invariant: a head stays coherent, and a turn goes on with its next letter.
-/
theorem Step.invariant (h : Step settings m now m') (hm : m.Invariant settings taken) :
    m'.Invariant settings (taken ++ now) := by
  cases h with
  | @discover i hi _ _ c start hdiscover =>
    obtain ⟨rfl, room, hg⟩ := discover_first hdiscover
    obtain rfl : taken = [] := hm
    exact ⟨rfl, rfl, room, i, hi, hg⟩
  | setStart hset =>
    obtain ⟨rfl, rfl, room, i, hi, hg⟩ := hm
    obtain ⟨dfa, hset', hcoherent⟩ := hg.setStart hi room
    obtain rfl := Except.ok.inj (hset.symm.trans hset')
    exact ⟨0, rfl, hcoherent⟩
  | take hp hs =>
    obtain ⟨count, rfl, hcoherent⟩ := hm
    obtain ⟨hnext, hrest⟩ := hcoherent.take hp
    obtain rfl := Option.some.inj (hs.symm.trans (findIdx?_discovered hnext))
    refine ⟨?_, hnext, [], rfl, by simpa using hrest⟩
    rw [List.take_add_one, Array.getElem?_toList, hnext]
    rfl
  | @number c _ _ _ _ _ _ hnumber =>
    obtain ⟨rfl, hs, before, halphabet, hcoherent⟩ := hm
    have hn := hcoherent.number_ok hnumber
    -- A set that is new now is behind the sets that were taken.
    rw [List.append_nil]
    exact ⟨(hn.take hcoherent.taken_le).symm, c, before, halphabet, hs, hcoherent, hn⟩
  | @draw _ c' _ source _ a _ hlink =>
    obtain ⟨c₂, hlink', hl⟩ := hm.drawable.link
    obtain ⟨rfl, c₀, before, halphabet, hs, hcoherent, hn⟩ := hm
    obtain rfl := Except.ok.inj (hlink.symm.trans hlink')
    have hnext := hcoherent.linked hs hn hl
    have hkeys : layout n.alphabet source ++ before.map (source, ·) ++ [(source, a)] =
        layout n.alphabet source ++ (before ++ [a]).map (source, ·) := by simp
    refine ⟨?_, ?_, before ++ [a], by simpa using halphabet, hkeys ▸ hnext⟩
    · rw [hl.discovered, List.append_nil]
    · rw [hl.discovered]
      exact hn.keeps hs
  | done =>
    obtain ⟨rfl, hs, before, halphabet, hcoherent⟩ := hm
    rw [List.append_nil] at halphabet
    rw [← halphabet, ← layout_succ] at hcoherent
    exact ⟨_, List.append_nil _, hcoherent⟩

theorem Course.invariant (h : Course settings taken m) : m.Invariant settings taken := by
  induction h with
  | opening => rfl
  | step _ hstep ih => exact hstep.invariant ih

end Automata.Construction
