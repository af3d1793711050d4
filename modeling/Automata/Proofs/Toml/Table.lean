import Automata.Proofs.Completeness
import Automata.Proofs.Layout
import Automata.Proofs.Toml.Text
import Automata.Table.Toml
import Mathlib.Data.List.ReduceOption

namespace Automata

open Toml

namespace Row

def names (r : Row) : List String :=
  r.targets.reduceOption

theorem map_some_names {r : Row} (h : none ∉ r.targets) : r.names.map some = r.targets := by
  unfold names
  generalize r.targets = targets at h
  induction targets with
  | nil => rfl
  | cons x xs ih =>
    rw [List.mem_cons, not_or] at h
    obtain ⟨name, rfl⟩ := Option.ne_none_iff_exists'.mp (Ne.symm h.1)
    rw [List.reduceOption_cons_of_some, List.map_cons, ih h.2]

theorem ofValues_values (r : Row) : ofValues r.values = r :=
  rfl

variable {c : Codec} (laws : c.ListLaws)
include laws

/-- A missing target is one field too many that cannot be written. -/
theorem write_values_eq_none {r : Row} (h : none ∈ r.targets) :
    c.write (.record fields) r.values = none := by
  refine laws.field_refused (.inr ?_)
  refine laws.field_refused (.inr ?_)
  exact laws.field_refused (.inr (laws.gap_refused "targets" h))

theorem keeps_values {r : Row} (h : none ∉ r.targets) : c.Keeps (.record fields) r.values := by
  have htargets : c.Keeps (.record (.single "targets" (.gaps String))) (r.targets, ()) :=
    map_some_names h ▸ laws.gapless (by decide) r.names
  refine laws.field (by decide) (by decide) (laws.one (by decide) r.state) ?_
  refine laws.field (by decide) (by decide) (laws.one (by decide) r.start) ?_
  exact laws.field (by decide) (by decide) (laws.one (by decide) r.accepting) htargets

end Row

namespace Table

variable {α : Type} [Coded α] {c : Codec}

section Laws

variable (laws : c.ListLaws) {t : Table α}
include laws

theorem keeps_values (h : ∀ r ∈ t.rows, none ∉ r.targets) :
    c.Keeps (shape α) ((t.alphabet, ()), t.rows.map Row.values) := by
  have hother : "rows" ∉ (Fields.single "alphabet" (.list α)).names := by
    simp [Fields.single, Fields.names]
  refine laws.rows (by decide) hother (Fields.proper_single (by decide)) (by decide)
    (laws.whole_list (by decide) t.alphabet) ?_
  intro values hvalues
  obtain ⟨r, hr, rfl⟩ := List.mem_map.mp hvalues
  exact Row.keeps_values laws (h r hr)

/-- A table without missing targets is written, and read as what it was. -/
theorem read?_of_write? (h : ∀ r ∈ t.rows, none ∉ r.targets) :
    ∃ text, t.write? c = some text ∧ read? c text = some t := by
  obtain ⟨text, hwrite, hread⟩ := keeps_values laws h
  refine ⟨text, hwrite, ?_⟩
  simp [read?, hread, Function.comp_def, Row.ofValues_values]

theorem write?_eq_none_iff : t.write? c = none ↔ ∃ r ∈ t.rows, none ∈ r.targets := by
  constructor
  · intro hnone
    by_contra hwhole
    obtain ⟨text, hwrite, -⟩ :=
      read?_of_write? laws fun r hr hgap => hwhole ⟨r, hr, hgap⟩
    exact Option.some_ne_none text (hwrite.symm.trans hnone)
  · rintro ⟨r, hr, hgap⟩
    exact laws.row_refused (List.mem_map_of_mem hr) (Row.write_values_eq_none laws hgap)

end Laws

/-- Tables with these letters pass through text unchanged: a table can be written exactly if no
target is missing, what is written is read as the table, and a conversion gives tables that can be
written. -/
structure PassesThroughToml (c : Codec) (α : Type) [DecidableEq α] [Coded α] : Prop where
  refused_iff : ∀ t : Table α, t.write? c = none ↔ ∃ r ∈ t.rows, none ∈ r.targets
  reads_back : ∀ (t : Table α) text, t.write? c = some text → read? c text = some t
  determinized : ∀ (n : NFA α) settings d, (n.determinize settings).result = .ok d →
    ∃ text, d.table.write? c = some text ∧ read? c text = some d.table

/-- Any codec under the laws carries every table with no gap and refuses the others. -/
theorem passesThroughToml (laws : c.ListLaws) [DecidableEq α] : PassesThroughToml c α where
  refused_iff _ := write?_eq_none_iff laws
  reads_back t text htext := by
    have hwhole : ∀ r ∈ t.rows, none ∉ r.targets := by
      intro r hr hgap
      rw [(write?_eq_none_iff laws).mpr ⟨r, hr, hgap⟩] at htext
      cases htext
    obtain ⟨written, hwrite, hread⟩ := read?_of_write? laws hwhole
    rw [hwrite] at htext
    exact Option.some.inj htext ▸ hread
  determinized n settings d hd := by
    obtain ⟨course, hcourse, rfl⟩ := NFA.finished_of_determinize hd
    exact read?_of_write? laws (DFA.isComplete_iff_table.mp hcourse.breadthFirst.isComplete)

/-- Tables of characters, numbers or strings pass through text unchanged. -/
theorem toml_lossless (c : Codec) (laws : c.ListLaws) :
    PassesThroughToml c Char ∧ PassesThroughToml c UInt32 ∧ PassesThroughToml c Int64 ∧
      PassesThroughToml c String :=
  ⟨passesThroughToml laws, passesThroughToml laws, passesThroughToml laws, passesThroughToml laws⟩

/-- The table of a conversion comes back from its text, and a row that lacks a target keeps a table
from being written. -/
theorem toml_lossless_lasso : codec.ListLaws ∧
    (∃ d, (NFA.lasso.determinize {}).result = .ok d ∧
      ∃ text, d.table.write? codec = some text ∧ read? codec text = some d.table) ∧
    (⟨["a"], [⟨"s", true, false, [none]⟩]⟩ : Table String).write? codec = none := by
  obtain ⟨hchar, _, _, hstring⟩ := toml_lossless codec codec_listLaws
  obtain ⟨d, h⟩ := NFA.lasso_determinize
  exact ⟨codec_listLaws, ⟨d, h, hchar.determinized NFA.lasso {} d h⟩,
    (hstring.refused_iff _).mpr (by simp)⟩

end Table

end Automata
