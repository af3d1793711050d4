import Automata.Construction
import Automata.Proofs.DFA
import Mathlib.Data.List.Induction

namespace Automata

namespace Declaration

variable {ℓ : Type}

/-- The names in a declaration, in the order in which their states are created. -/
def mentioned : Declaration ℓ → List String
  | state name | startState name | finalState name => [name]
  | transition source _ target => [source, target]
  | start _ | final _ | edge .. => []

/-- The state that a declaration makes the start. Names stand for their places in a list. -/
def start? (names : List String) : Declaration ℓ → Option Nat
  | startState name => some (names.idxOf name)
  | start handle => some handle
  | _ => none

def final? (names : List String) : Declaration ℓ → Option Nat
  | finalState name => some (names.idxOf name)
  | final handle => some handle
  | _ => none

def edge? (names : List String) : Declaration ℓ → Option (Edge ℓ)
  | transition source label target => some ⟨names.idxOf source, label, names.idxOf target⟩
  | edge source label target => some ⟨source, label, target⟩
  | _ => none

def label? : Declaration ℓ → Option ℓ
  | transition _ label _ | edge _ label _ => some label
  | _ => none

theorem label?_eq (x : Declaration ℓ) (names : List String) :
    x.label? = (x.edge? names).map Edge.label := by
  cases x <;> rfl

/-- The labels of the edges that declarations ask for. -/
theorem map_label (ds : List (Declaration ℓ)) (names : List String) :
    (ds.filterMap (edge? names)).map Edge.label = ds.filterMap label? := by
  rw [List.map_filterMap]
  exact List.filterMap_congr fun x _ => (x.label?_eq names).symm

theorem idxOf_of_prefix {names names' : List String} (h : names <+: names') {name : String}
    (hm : name ∈ names) : names'.idxOf name = names.idxOf name := by
  obtain ⟨rest, rfl⟩ := h
  exact List.idxOf_append_of_mem hm

variable {x : Declaration ℓ} {names names' : List String}

/-- Names that come later do not change what a declaration is about. -/
theorem start?_of_prefix (hm : ∀ name ∈ x.mentioned, name ∈ names) (h : names <+: names') :
    x.start? names' = x.start? names := by
  cases x with
  | startState name => simp [start?, idxOf_of_prefix h (hm name (by simp [mentioned]))]
  | _ => rfl

theorem final?_of_prefix (hm : ∀ name ∈ x.mentioned, name ∈ names) (h : names <+: names') :
    x.final? names' = x.final? names := by
  cases x with
  | finalState name => simp [final?, idxOf_of_prefix h (hm name (by simp [mentioned]))]
  | _ => rfl

theorem edge?_of_prefix (hm : ∀ name ∈ x.mentioned, name ∈ names) (h : names <+: names') :
    x.edge? names' = x.edge? names := by
  cases x with
  | transition source label target =>
    simp [edge?, idxOf_of_prefix h (hm source (by simp [mentioned])),
      idxOf_of_prefix h (hm target (by simp [mentioned]))]
  | _ => rfl

end Declaration

namespace Roster

/-- A name that is known is not entered twice. -/
theorem names_add (r : Roster) (name : String) :
    (r.add name).1.names = (r.names ++ [name]).eraseDups := by
  rw [eraseDups_concat r.names_nodup]
  unfold add
  split
  · rename_i i h
    have hm : name ∈ r.names := List.mem_of_getElem? (index?_eq_some_iff.mp h)
    simp [hm]
  · rename_i h
    rw [if_neg (index?_eq_none_iff.mp h)]
    simp [push, names]

theorem mem_names_add (r : Roster) (name : String) : name ∈ (r.add name).1.names := by
  rw [names_add, List.mem_eraseDups]
  simp

/-- The handle of a name is its place. -/
theorem add_index (r : Roster) (name : String) :
    (r.add name).2 = (r.add name).1.names.idxOf name := by
  have hindex : (r.add name).1.names[(r.add name).2]? = some name := by
    unfold add
    split
    · rename_i i h
      exact index?_eq_some_iff.mp h
    · simp [push, names, size]
  have hsome := index?_eq_idxOf (r.mem_names_add name)
  exact Option.some.inj ((index?_eq_some_iff.mpr hindex).symm.trans hsome)

/-- A state that is created later does not change the place of a name. -/
theorem idxOf_names_add {r : Roster} {name : String} (h : name ∈ r.names) (other : String) :
    (r.add other).1.names.idxOf name = r.names.idxOf name := by
  rw [names_add]
  exact Declaration.idxOf_of_prefix (prefix_eraseDups_append r.names_nodup _) h

/-- The edge between two names joins the handles of their states. -/
theorem edge?_transition {ℓ : Type} {r r' : Roster} {source target : String} {label : ℓ}
    (h : r' = ((r.add source).1.add target).1) :
    (Declaration.transition source label target).edge? r'.names =
      some ⟨(r.add source).2, label, ((r.add source).1.add target).2⟩ := by
  rw [h, Declaration.edge?, idxOf_names_add (r.mem_names_add source), ← add_index, ← add_index]

/-- To add a state marks none. -/
theorem accepting_add (r : Roster) (name : String) (i : Nat) :
    ((r.add name).1.state? i).any State.accepting = (r.state? i).any State.accepting := by
  unfold add
  split
  · rfl
  · simp only [state?, push, Array.getElem?_push]
    split
    · rename_i hi
      simp [hi]
    · rfl

theorem state?_accept (r : Roster) (i j : Nat) :
    (r.accept i).state? j = if i = j then (r.state? j).map State.accept else r.state? j := by
  simp [state?, accept, Array.getElem?_modify]

theorem names_accept (r : Roster) (i : Nat) : (r.accept i).names = r.names := by
  apply List.ext_getElem?
  intro j
  rw [names_getElem?, names_getElem?, state?_accept]
  split
  · cases r.state? j <;> rfl
  · rfl

/-- To accept a state marks that state only. -/
theorem accepting_accept {r : Roster} {i : Nat} (hi : i < r.size) (j : Nat) :
    ((r.accept i).state? j).any State.accepting =
      ((r.state? j).any State.accepting || decide (i = j)) := by
  rw [state?_accept]
  split
  · rename_i h
    subst h
    obtain ⟨s, hs⟩ : ∃ s, r.state? i = some s := ⟨_, Array.getElem?_eq_getElem hi⟩
    simp [hs, State.accept]
  · rename_i h
    simp [h]

end Roster

namespace Diagram

variable {ℓ : Type}

/-- What a declaration does to the states and to the start. -/
structure Declared (x : Declaration ℓ) (d d' : Diagram ℓ) : Prop where
  names : d'.roster.names = (d.roster.names ++ x.mentioned).eraseDups
  start : d'.start = (x.start? d'.roster.names).or d.start
  final : ∀ i, d'.isFinal i = true ↔ d.isFinal i = true ∨ x.final? d'.roster.names = some i

/-- What all declarations together do to the states and to the start. -/
structure History (ds : List (Declaration ℓ)) (base d : Diagram ℓ) : Prop where
  names : d.roster.names = (base.roster.names ++ ds.flatMap Declaration.mentioned).eraseDups
  start : d.start = (ds.filterMap (Declaration.start? d.roster.names)).getLast?.or base.start
  final : ∀ i, d.isFinal i = true ↔
    base.isFinal i = true ∨ i ∈ ds.filterMap (Declaration.final? d.roster.names)

namespace Declared

variable {d d' : Diagram ℓ}

theorem of_add {x : Declaration ℓ} {name : String} (hx : x.mentioned = [name])
    (hr : d'.roster = (d.roster.add name).1) (hs : d'.start = (x.start? d'.roster.names).or d.start)
    (hf : x.final? d'.roster.names = none) : Declared x d d' where
  names := by rw [hr, hx, Roster.names_add]
  start := hs
  final i := by simp [isFinal, state?, hr, Roster.accepting_add, hr ▸ hf]

theorem of_roster {x : Declaration ℓ} (hx : x.mentioned = []) (hr : d'.roster = d.roster)
    (hs : d'.start = (x.start? d'.roster.names).or d.start)
    (hf : x.final? d'.roster.names = none) : Declared x d d' where
  names := by rw [hr, hx, List.append_nil, eraseDups_of_nodup d.roster.names_nodup]
  start := hs
  final i := by simp [isFinal, state?, hr, hr ▸ hf]

theorem by_state (d : Diagram ℓ) (name : String) :
    Declared (.state name) d (d.addState name).1 :=
  of_add rfl rfl rfl rfl

theorem by_startState {name : String} {t : Diagram ℓ} {i : Nat} (ht : t = (d.addState name).1)
    (hi : i = (d.addState name).2) (h : i < t.size) :
    Declared (.startState name) d (t.withStart i h) := by
  subst ht hi
  apply of_add rfl rfl _ rfl
  change some (d.roster.add name).2 = _
  rw [Roster.add_index]
  rfl

theorem by_finalState {name : String} {t : Diagram ℓ} {i : Nat} (ht : t = (d.addState name).1)
    (hi : i = (d.addState name).2) : Declared (.finalState name) d (t.accept i) := by
  subst ht hi
  refine ⟨(Roster.names_accept _ _).trans (Roster.names_add _ _), rfl, fun i => ?_⟩
  have haccept := Roster.accepting_accept (d.roster.add_lt name) i
  rw [Roster.accepting_add] at haccept
  change (((d.roster.add name).1.accept (d.roster.add name).2).state? i).any _ = true ↔
    _ ∨ Declaration.final? ((d.roster.add name).1.accept (d.roster.add name).2).names _ = _
  rw [haccept, Roster.names_accept]
  simp [isFinal, state?, Declaration.final?, Roster.add_index]

theorem by_start (d : Diagram ℓ) {i : Nat} (h : i < d.size) :
    Declared (.start i) d (d.withStart i h) :=
  of_roster rfl rfl rfl rfl

theorem by_final (d : Diagram ℓ) {i : Nat} (hi : i < d.size) :
    Declared (.final i) d (d.accept i) where
  names := by
    rw [Declaration.mentioned, List.append_nil, eraseDups_of_nodup d.roster.names_nodup]
    exact Roster.names_accept _ _
  start := rfl
  final j := by
    change ((d.roster.accept i).state? j).any _ = true ↔ _
    rw [Roster.accepting_accept hi]
    simp [isFinal, state?, Declaration.final?]

theorem by_transition {source target : String} {label : ℓ}
    (hr : d'.roster = ((d.roster.add source).1.add target).1) (hs : d'.start = d.start) :
    Declared (.transition source label target) d d' where
  names := by
    rw [hr, Roster.names_add, Roster.names_add, eraseDups_append_eraseDups, List.append_assoc]
    rfl
  start := hs
  final i := by simp [isFinal, state?, hr, Roster.accepting_add, Declaration.final?]

theorem by_edge {source target : Nat} {label : ℓ} (hr : d'.roster = d.roster)
    (hs : d'.start = d.start) : Declared (.edge source label target) d d' :=
  of_roster rfl hr hs rfl

end Declared

variable {x : Declaration ℓ} {ds : List (Declaration ℓ)} {base d d' : Diagram ℓ}

theorem Declared.names_prefix (h : Declared x d d') : d.roster.names <+: d'.roster.names := by
  rw [h.names]
  exact prefix_eraseDups_append d.roster.names_nodup _

theorem Declared.mem_names (h : Declared x d d') :
    ∀ name ∈ x.mentioned, name ∈ d'.roster.names := by
  intro name hname
  rw [h.names, List.mem_eraseDups]
  exact List.mem_append_right _ hname

theorem History.refl (d : Diagram ℓ) : History [] d d where
  names := by simp [eraseDups_of_nodup d.roster.names_nodup]
  start := rfl
  final i := by simp

theorem History.names_prefix (h : History ds base d) : base.roster.names <+: d.roster.names := by
  rw [h.names]
  exact prefix_eraseDups_append base.roster.names_nodup _

theorem History.mem_names (h : History ds base d) (hx : x ∈ ds) :
    ∀ name ∈ x.mentioned, name ∈ d.roster.names := by
  intro name hname
  rw [h.names, List.mem_eraseDups, List.mem_append, List.mem_flatMap]
  exact .inr ⟨x, hx, hname⟩

/-- What earlier declarations are about stays what it is. -/
theorem History.filterMap_eq {β : Type} {f : List String → Declaration ℓ → Option β}
    (hf : ∀ {y : Declaration ℓ} {names names' : List String},
      (∀ name ∈ y.mentioned, name ∈ names) → names <+: names' → f names' y = f names y)
    (h : History ds base d) (hx : Declared x d d') :
    ds.filterMap (f d'.roster.names) = ds.filterMap (f d.roster.names) :=
  List.filterMap_congr fun _ hy => hf (h.mem_names hy) hx.names_prefix

/-- A history goes on with one more declaration. -/
theorem History.concat (h : History ds base d) (hx : Declared x d d') :
    History (ds ++ [x]) base d' where
  names := by
    rw [hx.names, h.names, eraseDups_append_eraseDups, List.append_assoc]
    simp
  start := by
    rw [hx.start, h.start, List.filterMap_append, h.filterMap_eq Declaration.start?_of_prefix hx]
    cases hs : x.start? d'.roster.names <;> simp [hs]
  final i := by
    rw [hx.final, h.final, List.filterMap_append, h.filterMap_eq Declaration.final?_of_prefix hx]
    simp [List.mem_filterMap, or_assoc]

end Diagram

/-- What holds if a step succeeds under a condition, which must be met for it to succeed. -/
theorem eq_of_guard {ε β : Type} {p : Prop} [Decidable p] {f : p → β} {e : ε} {y : β}
    (h : (if hp : p then Except.ok (f hp) else .error e) = .ok y) : ∃ hp, f hp = y := by
  split at h
  · exact ⟨_, Except.ok.inj h⟩
  · cases h

namespace Builder

variable {σ ℓ γ : Type} {b : Builder σ ℓ}

/-- What is seen of an automaton while declarations are carried out: its diagram, and what its
edges and letters come to, which an edge changes in one way only. -/
structure View (b : Builder σ ℓ) (γ : Type) where
  diagram : σ → Diagram ℓ
  content : σ → γ
  write : γ → Edge ℓ → γ
  addState : ∀ {s s' name i}, b.addState s name = (s', i) →
    diagram s' = ((diagram s).addState name).1 ∧ i = ((diagram s).addState name).2 ∧
    content s' = content s
  setStart : ∀ {s s' i}, b.setStart s i = .ok s' →
    (∃ h, diagram s' = (diagram s).withStart i h) ∧ content s' = content s
  setFinal : ∀ {s s' i}, b.setFinal s i = .ok s' →
    i < (diagram s).size ∧ diagram s' = (diagram s).accept i ∧ content s' = content s
  addEdge : ∀ {s s' source label target k}, b.addEdge s source label target = .ok (s', k) →
    (diagram s').roster = (diagram s).roster ∧ (diagram s').start = (diagram s).start ∧
    content s' = write (content s) ⟨source, label, target⟩ ∧
    (diagram s').edges[k]? = some ⟨source, label, target⟩

/-- The first declaration is made, and the others follow it. -/
theorem extend_cons {x : Declaration ℓ} {ds : List (Declaration ℓ)} {s s' : σ} :
    b.extend s (x :: ds) = .ok s' ↔
      ∃ t k, b.declare s x = .ok (t, k) ∧ b.extend t ds = .ok s' := by
  rw [extend, List.foldlM_cons, bind_eq_ok]
  constructor
  · rintro ⟨t, hx, hds⟩
    cases hf : b.declare s x with
    | error e => simp [hf] at hx
    | ok r =>
      rw [hf] at hx
      cases hx
      exact ⟨r.1, r.2, rfl, hds⟩
  · rintro ⟨t, k, hx, hds⟩
    exact ⟨t, by rw [hx]; rfl, hds⟩

theorem extend_split {before after : List (Declaration ℓ)} {x : Declaration ℓ} {s s' : σ} :
    b.extend s (before ++ x :: after) = .ok s' ↔
      ∃ t t' k, b.extend s before = .ok t ∧ b.declare t x = .ok (t', k) ∧
        b.extend t' after = .ok s' := by
  rw [extend, List.foldlM_append, bind_eq_ok]
  refine exists_congr fun t => (and_congr_right fun _ => extend_cons).trans ?_
  simp only [exists_and_left]
  rfl

namespace View

variable (v : b.View γ) {x : Declaration ℓ} {ds : List (Declaration ℓ)} {base s s' : σ} {k : Nat}

/-- What a declaration does, and what the handle that it answers with means. -/
structure Declared (x : Declaration ℓ) (s s' : σ) (k : Nat) : Prop
    extends Diagram.Declared x (v.diagram s) (v.diagram s') where
  content : v.content s' =
    (x.edge? (v.diagram s').roster.names).toList.foldl v.write (v.content s)
  handle : ∀ e, x.edge? (v.diagram s').roster.names = some e → (v.diagram s').edges[k]? = some e

/-- What all declarations together come to. -/
structure History (ds : List (Declaration ℓ)) (base s : σ) : Prop
    extends Diagram.History ds (v.diagram base) (v.diagram s) where
  content : v.content s =
    (ds.filterMap (Declaration.edge? (v.diagram s).roster.names)).foldl v.write (v.content base)

variable {v}

theorem Declared.of_no_edge (h : Diagram.Declared x (v.diagram s) (v.diagram s'))
    (hx : ∀ names, x.edge? names = none) (hc : v.content s' = v.content s) :
    v.Declared x s s' k where
  toDeclared := h
  content := by rw [hx, hc]; rfl
  handle e he := by rw [hx] at he; cases he

theorem Declared.of_edge {e : Edge ℓ} (h : Diagram.Declared x (v.diagram s) (v.diagram s'))
    (hx : x.edge? (v.diagram s').roster.names = some e)
    (hc : v.content s' = v.write (v.content s) e) (hk : (v.diagram s').edges[k]? = some e) :
    v.Declared x s s' k where
  toDeclared := h
  content := by rw [hx, hc]; rfl
  handle f hf := by
    rw [hx] at hf
    cases hf
    exact hk

/-- Whichever declaration is made, what it changes is what it declares. -/
theorem declare_ok (v : b.View γ) (h : b.declare s x = .ok (s', k)) : v.Declared x s s' k := by
  cases x with
  | state name =>
    obtain ⟨hd, -, hc⟩ := v.addState (Except.ok.inj h)
    exact .of_no_edge (hd ▸ .by_state _ name) (fun _ => rfl) hc
  | startState name =>
    obtain ⟨t, i, hadd⟩ : ∃ t i, b.addState s name = (t, i) := ⟨_, _, rfl⟩
    rw [declare, hadd] at h
    obtain ⟨t', ht, h⟩ := bind_eq_ok.mp h
    cases h
    obtain ⟨hd, hi, hc⟩ := v.addState hadd
    obtain ⟨⟨hlt, hstart⟩, hsame⟩ := v.setStart ht
    exact .of_no_edge (hstart ▸ .by_startState hd hi hlt) (fun _ => rfl) (hsame.trans hc)
  | finalState name =>
    obtain ⟨t, i, hadd⟩ : ∃ t i, b.addState s name = (t, i) := ⟨_, _, rfl⟩
    rw [declare, hadd] at h
    obtain ⟨t', ht, h⟩ := bind_eq_ok.mp h
    cases h
    obtain ⟨hd, hi, hc⟩ := v.addState hadd
    obtain ⟨-, hfinal, hsame⟩ := v.setFinal ht
    exact .of_no_edge (hfinal ▸ .by_finalState hd hi) (fun _ => rfl) (hsame.trans hc)
  | start i =>
    obtain ⟨t, ht, h⟩ := bind_eq_ok.mp h
    cases h
    obtain ⟨⟨hlt, hstart⟩, hsame⟩ := v.setStart ht
    exact .of_no_edge (hstart ▸ .by_start _ hlt) (fun _ => rfl) hsame
  | final i =>
    obtain ⟨t, ht, h⟩ := bind_eq_ok.mp h
    cases h
    obtain ⟨hi, hfinal, hsame⟩ := v.setFinal ht
    exact .of_no_edge (hfinal ▸ .by_final _ hi) (fun _ => rfl) hsame
  | transition source label target =>
    obtain ⟨t, i, hsource⟩ : ∃ t i, b.addState s source = (t, i) := ⟨_, _, rfl⟩
    obtain ⟨t', j, htarget⟩ : ∃ t' j, b.addState t target = (t', j) := ⟨_, _, rfl⟩
    have hedge : b.addEdge t' i label j = .ok (s', k) := by
      rw [declare, addTransition, hsource] at h
      simp only [htarget] at h
      exact h
    obtain ⟨hd, hi, hc⟩ := v.addState hsource
    obtain ⟨hd', hj, hc'⟩ := v.addState htarget
    obtain ⟨hr, hs, hwrite, hk⟩ := v.addEdge hedge
    rw [hd', hd] at hr hs
    rw [hd] at hj
    rw [hc', hc] at hwrite
    refine .of_edge (.by_transition hr hs) ?_ hwrite hk
    rw [hi, hj]
    exact Roster.edge?_transition hr
  | edge source label target =>
    obtain ⟨hr, hs, hc, hk⟩ := v.addEdge h
    exact .of_edge (.by_edge hr hs) rfl hc hk

theorem History.refl (s : σ) : v.History [] s s where
  toHistory := .refl (v.diagram s)
  content := rfl

theorem History.concat (h : v.History ds base s) (hx : v.Declared x s s' k) :
    v.History (ds ++ [x]) base s' where
  toHistory := h.toHistory.concat hx.toDeclared
  content := by
    have hlast : [x].filterMap (Declaration.edge? (v.diagram s').roster.names) =
        (x.edge? (v.diagram s').roster.names).toList := by
      cases he : x.edge? (v.diagram s').roster.names <;> simp [he]
    rw [hx.content, h.content, List.filterMap_append, hlast, List.foldl_append,
      h.filterMap_eq Declaration.edge?_of_prefix hx.toDeclared]

/-- By induction on the declarations, the latest one last. -/
theorem extend_history (v : b.View γ) (h : b.extend base ds = .ok s) : v.History ds base s := by
  induction ds using List.reverseRecOn generalizing s with
  | nil =>
    cases h
    exact .refl base
  | append_singleton ds x ih =>
    obtain ⟨t, t', k, ht, hx, hlast⟩ := extend_split.mp h
    cases hlast
    exact (ih ht).concat (v.declare_ok hx)

end View

end Builder

end Automata
