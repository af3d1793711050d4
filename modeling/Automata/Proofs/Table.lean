import Automata.Table.Basic
import Automata.Proofs.DFA

namespace Automata

namespace Table

variable {α : Type}

def startRow? (t : Table α) : Option Row :=
  t.rows.find? Row.start

variable [DecidableEq α]

/-- The row of the state to which a letter leads. -/
def follow? (t : Table α) (row : Row) (a : α) : Option Row :=
  (t.target? row.state a).bind t.row?

/-- Whether a word leads from the start row to an accepting row. Without a start row no word does,
nor does a word that meets a missing target. -/
def accepts (t : Table α) (word : List α) : Bool :=
  (t.startRow?.bind fun row => word.foldlM t.follow? row).any Row.accepting

end Table

namespace DFA

variable {α : Type} [DecidableEq α] {d : DFA α}

def rowAt (d : DFA α) (i : Nat) : Row where
  state := d.nameOf i
  start := d.start = some i
  accepting := d.isFinal i
  targets := d.alphabet.map fun a => (d.target? i a).map d.nameOf

@[simp] theorem rowAt_state (d : DFA α) (i : Nat) : (d.rowAt i).state = d.nameOf i := rfl

@[simp] theorem rowAt_start (d : DFA α) (i : Nat) :
    (d.rowAt i).start = decide (d.start = some i) := rfl

/-- A letter outside the alphabet leads nowhere. -/
theorem target?_of_notMem {a : α} (ha : a ∉ d.alphabet) (i : Nat) : d.target? i a = none :=
  Option.eq_none_iff_forall_ne_some.mpr fun _ ht => ha (mem_alphabet_of_target? ht)

theorem target?_name (d : DFA α) (i : Nat) (a : α) :
    ((d.target? i a).bind d.state?).map State.name = (d.target? i a).map d.nameOf := by
  cases ht : d.target? i a with
  | none => rfl
  | some t =>
    obtain ⟨s, hs⟩ := Diagram.state?_of_lt (target?_lt ht)
    simp [hs, Diagram.nameOf_eq hs]

theorem table_rows (d : DFA α) : d.table.rows = d.handles.map d.rowAt := by
  rw [← List.filterMap_eq_map]
  apply List.filterMap_congr
  intro i hi
  obtain ⟨s, hs⟩ := Diagram.state?_of_lt (List.mem_range.mp hi)
  simp only [hs, Option.map_some, Function.comp_apply, rowAt, target?_name, Diagram.nameOf_eq hs,
    Diagram.isFinal_eq hs]

/-- A row is found by the name of its state. -/
theorem row?_table (d : DFA α) (name : String) :
    d.table.row? name = (d.index? name).map d.rowAt := by
  have hname : (fun r : Row => decide (r.state = name)) ∘ d.rowAt =
      fun i => decide (d.nameOf i = name) := rfl
  rw [Table.row?, table_rows, List.find?_map, hname]
  congr 1
  apply Option.ext
  intro i
  rw [Diagram.index?_eq_some_iff_nameOf, find?_eq_some_iff_of_unique]
  · simp [Diagram.handles]
  · intro j hj k hk hjname hkname
    simp only [decide_eq_true_eq] at hjname hkname
    exact Diagram.nameOf_inj (List.mem_range.mp hj) (List.mem_range.mp hk)
      (hjname.trans hkname.symm)

/-- A target is found by the name of its source and by its letter. -/
theorem target?_table (d : DFA α) (name : String) (a : α) :
    d.table.target? name a = (d.index? name).bind fun i => (d.target? i a).map d.nameOf := by
  rw [Table.target?, row?_table]
  cases hc : d.table.alphabet.findIdx? (· = a) with
  | none =>
    have ha : a ∉ d.alphabet := by
      intro ha
      have hne := List.findIdx?_eq_none_iff.mp hc a ha
      simp at hne
    cases d.index? name <;> simp [target?_of_notMem ha]
  | some c =>
    obtain ⟨hlt, ha, _⟩ := List.findIdx?_eq_some_iff_getElem.mp hc
    have hletter : d.alphabet[c]? = some a :=
      List.getElem?_eq_some_iff.mpr ⟨hlt, of_decide_eq_true ha⟩
    cases d.index? name with
    | none => rfl
    | some i => simp [rowAt, hletter]

theorem targetNamed_eq_ok_iff {name : String} {a : α} {s : State} :
    d.targetNamed name a = .ok (some s) ↔
      ∃ i, d.index? name = some i ∧ (d.target? i a).bind d.state? = some s := by
  unfold targetNamed Diagram.require
  cases d.index? name with
  | none => simp [bind, Except.bind]
  | some i => simp [bind, Except.bind, pure, Except.pure]

/-- The marked rows are that of the start state, if there is one. -/
theorem filter_start_table (d : DFA α) :
    d.table.rows.filter Row.start = (d.start.map d.rowAt).toList := by
  rw [table_rows, List.filter_map]
  cases hs : d.start with
  | none => simp [Function.comp_def, hs]
  | some i =>
    have hone : d.handles.filter (fun j => j = i) = [i] := by
      have hlt : i < d.size := d.start_lt i hs
      simp [List.filter_eq, Diagram.handles, List.count_range, hlt]
    simp [Function.comp_def, hs, eq_comm (a := i), hone]

theorem startRow?_table (d : DFA α) : d.table.startRow? = d.start.map d.rowAt := by
  rw [Table.startRow?, ← List.head?_filter, filter_start_table]
  cases d.start <;> rfl

theorem follow?_table {i : Nat} (hi : i < d.size) (a : α) :
    d.table.follow? (d.rowAt i) a = (d.target? i a).map d.rowAt := by
  have hindex : ∀ {j}, j < d.size → d.index? (d.nameOf j) = some j :=
    fun hj => Diagram.index?_of_nameOf hj rfl
  rw [Table.follow?, target?_table, rowAt_state, hindex hi, Option.bind_some]
  cases ht : d.target? i a with
  | none => rfl
  | some t => rw [Option.map_some, Option.bind_some, row?_table, hindex (target?_lt ht)]

/-- A word leads through the rows of the states through which it leads. -/
theorem foldlM_follow?_table {i : Nat} (hi : i < d.size) (word : List α) :
    word.foldlM d.table.follow? (d.rowAt i) = (d.run i word).map d.rowAt := by
  induction word generalizing i with
  | nil => rfl
  | cons a word ih =>
    rw [List.foldlM_cons, follow?_table hi, run_cons]
    cases ht : d.target? i a with
    | none => rfl
    | some t => exact ih (target?_lt ht)

theorem accepts_table (d : DFA α) (word : List α) : d.table.accepts word = d.accepts word := by
  rw [Table.accepts, startRow?_table, accepts]
  cases hs : d.start with
  | none => rfl
  | some i =>
    simp only [Option.map_some, Option.bind_some, foldlM_follow?_table (d.start_lt i hs)]
    cases d.run i word <;> rfl

/-- The table has a target for a name and a letter exactly when the automaton has, and gives its
name; one row is marked as the start if there is a start state, and none otherwise; and the table
by itself accepts the words that the automaton accepts. -/
theorem table_faithful (d : DFA α) :
    (∀ name a x, d.table.target? name a = some x ↔
      ∃ s, d.targetNamed name a = .ok (some s) ∧ s.name = x) ∧
    (∀ name a, d.table.target? name a = none ↔
      d.index? name = none ∨ a ∉ d.alphabet ∨
        ∃ i, d.index? name = some i ∧ d.target? i a = none) ∧
    (d.table.rows.filter Row.start).length = (if d.start.isSome then 1 else 0) ∧
    ∀ word, d.table.accepts word = d.accepts word := by
  refine ⟨?_, ?_, ?_, d.accepts_table⟩
  · intro name a x
    rw [target?_table]
    simp only [targetNamed_eq_ok_iff, ← target?_name, Option.bind_eq_some_iff,
      Option.map_eq_some_iff]
    constructor
    · rintro ⟨i, hi, s, hs, hx⟩
      exact ⟨s, ⟨i, hi, hs⟩, hx⟩
    · rintro ⟨s, ⟨i, hi, hs⟩, hx⟩
      exact ⟨i, hi, s, hs, hx⟩
  · intro name a
    rw [target?_table]
    cases hi : d.index? name with
    | none => simp
    | some i => simpa using fun ha : a ∉ d.alphabet => target?_of_notMem ha i
  · rw [filter_start_table]
    cases d.start <;> rfl

end DFA

end Automata
