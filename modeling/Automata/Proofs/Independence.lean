import Automata.Proofs.Construction

namespace Automata.Construction

variable {α : Type} {n : NFA α}

variable {settings₁ settings₂ : Settings} {c₁ c₂ r₁ r₂ : Construction n}

/-- Two constructions that did the same work number a new set alike, whatever their settings. -/
theorem SameWork.discover {s : StateSet} {fresh₁ : s ∉ c₁.discovered} {fresh₂ : s ∉ c₂.discovered}
    {bounded : ∀ i ∈ s, i < n.size} {i₁ i₂ : Nat} (h : SameWork c₁ c₂)
    (h₁ : c₁.discover settings₁ s fresh₁ bounded = .ok (r₁, i₁))
    (h₂ : c₂.discover settings₂ s fresh₂ bounded = .ok (r₂, i₂)) : SameWork r₁ r₂ ∧ i₁ = i₂ := by
  obtain ⟨name₁, accepting₁, dfa₁, e₁, hname₁, haccepting₁, hpush₁, hr₁⟩ := discover_eq_ok h₁
  obtain ⟨name₂, accepting₂, dfa₂, e₂, hname₂, haccepting₂, hpush₂, hr₂⟩ := discover_eq_ok h₂
  obtain rfl := Except.ok.inj (hname₁.symm.trans hname₂)
  obtain rfl := Except.ok.inj (haccepting₁.symm.trans haccepting₂)
  rw [h.dfa] at hpush₁
  obtain ⟨rfl, rfl⟩ := Prod.mk.inj (Except.ok.inj (hpush₁.symm.trans hpush₂))
  refine ⟨hr₁.trans (SameWork.trans ?_ hr₂.symm), rfl⟩
  exact ⟨rfl, congrArg (·.push s) h.discovered, congrArg (· ++ [s]) h.pending⟩

/-- A set has the same number in both, known or new. -/
theorem SameWork.number {s : StateSet} {bounded : ∀ i ∈ s, i < n.size} {i₁ i₂ : Nat}
    (h : SameWork c₁ c₂) (h₁ : c₁.number settings₁ s bounded = .ok (r₁, i₁))
    (h₂ : c₂.number settings₂ s bounded = .ok (r₂, i₂)) : SameWork r₁ r₂ ∧ i₁ = i₂ := by
  have hfind : c₁.discovered.findIdx? (· = s) = c₂.discovered.findIdx? (· = s) := by
    rw [h.discovered]
  unfold Construction.number at h₁ h₂
  split at h₁ <;> split at h₂
  · rename_i j₁ hj₁ j₂ hj₂
    cases h₁
    cases h₂
    exact ⟨h, Option.some.inj (hj₁.symm.trans (hfind.trans hj₂))⟩
  · rename_i j₁ hj₁ hnone
    rw [hfind, hnone] at hj₁
    cases hj₁
  · rename_i hnone j₂ hj₂
    rw [← hfind, hnone] at hj₂
    cases hj₂
  · exact h.discover h₁ h₂

variable [DecidableEq α]

theorem SameWork.link {i t : Nat} {a : α} (h : SameWork c₁ c₂) (h₁ : c₁.link i a t = .ok r₁)
    (h₂ : c₂.link i a t = .ok r₂) : SameWork r₁ r₂ := by
  obtain ⟨p₁, _, h₁⟩ := bind_eq_ok.mp h₁
  obtain ⟨q₁, _, h₁⟩ := bind_eq_ok.mp h₁
  obtain ⟨⟨dfa₁, _⟩, hadd₁, h₁⟩ := bind_eq_ok.mp h₁
  obtain ⟨p₂, _, h₂⟩ := bind_eq_ok.mp h₂
  obtain ⟨q₂, _, h₂⟩ := bind_eq_ok.mp h₂
  obtain ⟨⟨dfa₂, _⟩, hadd₂, h₂⟩ := bind_eq_ok.mp h₂
  cases h₁
  cases h₂
  have hadd₁ := attempt_eq_ok.mp hadd₁
  have hadd₂ := attempt_eq_ok.mp hadd₂
  change c₁.dfa.addEdge i a t = _ at hadd₁
  rw [h.dfa] at hadd₁
  obtain ⟨rfl, _⟩ := Prod.mk.inj (Except.ok.inj (hadd₁.symm.trans hadd₂))
  exact ⟨rfl, h.discovered, h.pending⟩

theorem SameWork.foldlM_connect {s : StateSet} {i : Nat} {letters : List α}
    (h : SameWork c₁ c₂) (h₁ : letters.foldlM (connect settings₁ s i) c₁ = .ok r₁)
    (h₂ : letters.foldlM (connect settings₂ s i) c₂ = .ok r₂) : SameWork r₁ r₂ := by
  induction letters generalizing c₁ c₂ with
  | nil =>
    cases h₁
    cases h₂
    exact h
  | cons a letters ih =>
    obtain ⟨m₁, hm₁, h₁⟩ := bind_eq_ok.mp h₁
    obtain ⟨m₂, hm₂, h₂⟩ := bind_eq_ok.mp h₂
    obtain ⟨⟨k₁, t₁⟩, hnumber₁, hlink₁⟩ := bind_eq_ok.mp hm₁
    obtain ⟨⟨k₂, t₂⟩, hnumber₂, hlink₂⟩ := bind_eq_ok.mp hm₂
    obtain ⟨hk, ht⟩ := h.number hnumber₁ hnumber₂
    change k₁.link i a t₁ = _ at hlink₁
    rw [ht] at hlink₁
    exact ih (hk.link hlink₁ hlink₂) h₁ h₂

/-- They stay alike through the turn of a set. -/
theorem SameWork.expand {s : StateSet} (h : SameWork c₁ c₂)
    (h₁ : c₁.expand settings₁ s = .ok r₁) (h₂ : c₂.expand settings₂ s = .ok r₂) :
    SameWork r₁ r₂ := by
  unfold Construction.expand at h₁ h₂
  rw [h.discovered] at h₁
  cases hf : c₂.discovered.findIdx? (· = s) with
  | none =>
    rw [hf] at h₁
    cases h₁
  | some i =>
    rw [hf] at h₁ h₂
    exact h.foldlM_connect h₁ h₂

theorem SameWork.explore (h : SameWork c₁ c₂) (h₁ : explore settings₁ c₁ = .ok r₁)
    (h₂ : explore settings₂ c₂ = .ok r₂) : SameWork r₁ r₂ := by
  fun_induction Construction.explore settings₁ c₁ generalizing c₂ with
  | case1 c hp =>
    cases h₁
    rw [explore_nil (h.pending.symm.trans hp)] at h₂
    cases h₂
    exact h
  | case2 c s rest hp halt he => cases h₁
  | case3 c s rest hp c' he ih =>
    rw [explore_cons (h.pending.symm.trans hp)] at h₂
    obtain ⟨m, hm, h₂⟩ := bind_eq_ok.mp h₂
    have hrest : SameWork { c with pending := rest } { c₂ with pending := rest } :=
      ⟨h.dfa, h.discovered, rfl⟩
    exact ih (hrest.expand he hm) h₁ h₂

theorem finish_same {c c' : Construction n} (h : c.finish = .ok c') : SameWork c' c := by
  unfold finish at h
  split at h
  · cases h
  · cases h
    exact ⟨rfl, rfl, rfl⟩

theorem launch_same {i : Nat} {hi : n.start = some i} (h₁ : launch settings₁ hi = .ok r₁)
    (h₂ : launch settings₂ hi = .ok r₂) : SameWork r₁ r₂ := by
  obtain ⟨⟨c₁, i₁⟩, hdiscover₁, h₁⟩ := bind_eq_ok.mp h₁
  obtain ⟨dfa₁, hset₁, h₁⟩ := bind_eq_ok.mp h₁
  obtain ⟨⟨c₂, i₂⟩, hdiscover₂, h₂⟩ := bind_eq_ok.mp h₂
  obtain ⟨dfa₂, hset₂, h₂⟩ := bind_eq_ok.mp h₂
  cases h₁
  cases h₂
  have hbegin : SameWork (begin n) (begin n) := ⟨rfl, rfl, rfl⟩
  obtain ⟨hc, rfl⟩ := hbegin.discover hdiscover₁ hdiscover₂
  have hset₁ := attempt_eq_ok.mp hset₁
  have hset₂ := attempt_eq_ok.mp hset₂
  change c₁.dfa.setStart i₁ = _ at hset₁
  rw [hc.dfa] at hset₁
  exact ⟨Except.ok.inj (hset₁.symm.trans hset₂), hc.discovered, hc.pending⟩

/-- Settings decide whether a result is reached and never what it is. -/
theorem run_same (h₁ : run n settings₁ = .ok r₁) (h₂ : run n settings₂ = .ok r₂) :
    SameWork r₁ r₂ := by
  unfold run at h₁ h₂
  split at h₁
  · cases h₁
  · rename_i i hi
    split at h₂
    · cases h₂
    · rename_i j hj
      obtain rfl := Option.some.inj (hi.symm.trans hj)
      obtain ⟨l₁, hlaunch₁, h₁⟩ := bind_eq_ok.mp h₁
      obtain ⟨e₁, hexplore₁, h₁⟩ := bind_eq_ok.mp h₁
      obtain ⟨l₂, hlaunch₂, h₂⟩ := bind_eq_ok.mp h₂
      obtain ⟨e₂, hexplore₂, h₂⟩ := bind_eq_ok.mp h₂
      have hexplored := (launch_same hlaunch₁ hlaunch₂).explore hexplore₁ hexplore₂
      exact (finish_same h₁).trans (hexplored.trans (finish_same h₂).symm)

end Automata.Construction
