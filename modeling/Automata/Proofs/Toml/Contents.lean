import Automata.Proofs.Toml.Coded
import Automata.Proofs.Toml.Document
import Automata.Toml.Text
import Mathlib.Data.List.Nodup

namespace Automata.Toml

namespace Content

def scalars : Content → List Scalar
  | scalar s => [s]
  | list items => items

/-- All scalars in it are read as they are written, and their numbers can be kept. -/
def Sound (content : Content) : Prop :=
  ∀ s ∈ content.scalars, s.isWritten = true ∧ s.isStorable = true

theorem Sound.standsFor {content : Content} (h : content.Sound) :
    StandsFor content.write content.value := by
  cases content with
  | scalar s => exact standsFor_scalar (h s (List.mem_singleton_self s)).1
  | list items => exact standsFor_list fun s hs => (h s hs).1

/-- Sound content can be stored. -/
theorem Sound.isStorable {content : Content} (h : content.Sound) :
    content.value.isStorable = true := by
  cases content with
  | scalar s => exact (h s (List.mem_singleton_self s)).2
  | list items =>
    change itemsStorable (items.map .scalar) = true
    change ∀ s ∈ items, _ at h
    induction items with
    | nil => rfl
    | cons s items ih =>
      have hrest := ih fun t ht => h t (List.mem_cons_of_mem s ht)
      simpa [itemsStorable, Value.isStorable, hrest] using (h s List.mem_cons_self).2

end Content

namespace Contents

def names (contents : Contents) : List String :=
  contents.map Prod.fst

def entries (contents : Contents) : Entries :=
  contents.map fun (name, content) => (name, content.value)

def statements (contents : Contents) : List Statement :=
  contents.map fun (name, content) => .assignment [name] content.value

@[simp]
theorem entries_cons (e : String × Content) (contents : Contents) :
    entries (e :: contents) = (e.1, e.2.value) :: contents.entries :=
  rfl

@[simp]
theorem entries_append (contents others : Contents) :
    entries (contents ++ others) = contents.entries ++ others.entries :=
  List.map_append

@[simp]
theorem statements_cons (e : String × Content) (contents : Contents) :
    statements (e :: contents) = .assignment [e.1] e.2.value :: contents.statements :=
  rfl

@[simp]
theorem names_entries (contents : Contents) : contents.entries.map Prod.fst = contents.names := by
  simp [entries, names]

/-- Contents that are read as they are written. -/
structure Readable (contents : Contents) : Prop where
  distinct : contents.names.Nodup
  bare : ∀ name ∈ contents.names, isBareKey name = true
  sound : ∀ e ∈ contents, e.2.Sound

variable {contents : Contents}

/-- One more line under a new name is read as well. -/
theorem Readable.concat (h : contents.Readable) {name : String} (hbare : isBareKey name = true)
    (hname : name ∉ contents.names) {content : Content} (hsound : content.Sound) :
    Readable (contents ++ [(name, content)]) where
  distinct := by simpa [names] using List.Nodup.concat hname h.distinct
  bare := by simpa [names, or_imp, forall_and, hbare] using h.bare
  sound := List.forall_mem_append.mpr ⟨h.sound, List.forall_mem_singleton.mpr hsound⟩

theorem Readable.entriesStorable (h : contents.Readable) (p : String × Value → Bool) :
    entriesStorable (contents.entries.filter p) = true := by
  obtain ⟨-, -, hsound⟩ := h
  induction contents with
  | nil => rfl
  | cons e contents ih =>
    have hrest := ih fun d hd => hsound d (List.mem_cons_of_mem e hd)
    have hfirst := (hsound e List.mem_cons_self).isStorable
    rw [entries_cons, List.filter_cons]
    split
    · exact Bool.and_eq_true_iff.mpr ⟨hfirst, hrest⟩
    · exact hrest

/-- The keys that nothing is said about are ignored, whichever they are. -/
theorem Readable.ignorable (h : contents.Readable) (known : List String) :
    contents.entries.ignorable known = true :=
  h.entriesStorable _

/-- The lines in front of a text read as one statement each. -/
theorem Readable.readsAs (h : contents.Readable) {more : List Char} {others : List Statement}
    (hmore : ReadsAs more others) :
    ReadsAs (contents.write ++ more) (contents.statements ++ others) := by
  obtain ⟨-, hbare, hsound⟩ := h
  induction contents with
  | nil => exact hmore
  | cons e contents ih =>
    have hrest := ih (fun name hname => hbare name (List.mem_cons_of_mem _ hname))
      (fun d hd => hsound d (List.mem_cons_of_mem e hd))
    have hline := hrest.line e.1 (hbare e.1 List.mem_cons_self)
      (hsound e List.mem_cons_self).standsFor
    simpa [Contents.write, statements] using hline

/-- Lines add their entries one by one, wherever a line with a new key adds its entry. -/
theorem foldlM_statements (place : Entries → Entries) {current : List String}
    (hline : ∀ (es : Entries) key v, key ∉ es.map Prod.fst →
      Statement.apply (place es, current) (.assignment [key] v) =
        some (place (es ++ [(key, v)]), current))
    (es : Entries) (hdistinct : (es.map Prod.fst ++ contents.names).Nodup) :
    contents.statements.foldlM Statement.apply (place es, current) =
      some (place (es ++ contents.entries), current) := by
  induction contents generalizing es with
  | nil => simp [statements, entries]
  | cons e contents ih =>
    have hnew : e.1 ∉ es.map Prod.fst := by
      intro hmem
      exact (List.nodup_append.mp hdistinct).2.2 e.1 hmem e.1 List.mem_cons_self rfl
    have hrest := ih (es ++ [(e.1, e.2.value)]) (by simpa [names] using hdistinct)
    have hfirst := hline es e.1 e.2.value hnew
    rw [statements_cons, List.foldlM_cons, hfirst, Option.bind_eq_bind, Option.bind_some, hrest,
      entries_cons, List.append_assoc, List.singleton_append]

theorem Readable.foldlM_root (h : contents.Readable) :
    contents.statements.foldlM Statement.apply ([], []) = some (contents.entries, []) :=
  foldlM_statements id (fun _ _ v hkey => Statement.apply_assignment hkey v) []
    (by simpa using h.distinct)

end Contents

/-- What a text says by the time that it has had these elements of an array of tables. -/
def Entries.withElements (root : Entries) (name : String) : List Entries → Entries
  | [] => root
  | elements => root ++ [(name, .tables elements)]

namespace Entries

theorem withElements_concat (root : Entries) (name : String) (before : List Entries)
    (last : Entries) : root.withElements name (before ++ [last]) =
      root ++ [(name, .tables (before ++ [last]))] := by
  cases before <;> rfl

section Elements

variable {root : Entries} {name : String} (hname : name ∉ root.map Prod.fst)
include hname

theorem apply_element (before : List Entries) (current : List String) :
    Statement.apply (root.withElements name before, current) (.element [name]) =
      some (root.withElements name (before ++ [[]]), [name]) := by
  rw [withElements_concat]
  cases before with
  | nil =>
    simp [Statement.apply, within, openElement, withElements, update_of_notMem hname]
  | cons e before =>
    simp [Statement.apply, within, openElement, withElements, update_append hname, update]

/-- A line behind the header of an element changes no element but that. -/
theorem apply_line (before : List Entries) {last : Entries} {key : String}
    (hkey : key ∉ last.map Prod.fst) (v : Value) :
    Statement.apply (root.withElements name (before ++ [last]), [name]) (.assignment [key] v) =
      some (root.withElements name (before ++ [last ++ [(key, v)]]), [name]) := by
  simp [withElements_concat, Statement.apply, within, update_append hname, update, changeLast,
    assign, insert_of_notMem hkey]

theorem foldlM_section (before : List Entries) (current : List String) {contents : Contents}
    (h : contents.Readable) :
    (.element [name] :: contents.statements).foldlM Statement.apply
        (root.withElements name before, current) =
      some (root.withElements name (before ++ [contents.entries]), [name]) := by
  rw [List.foldlM_cons, apply_element hname, Option.bind_eq_bind, Option.bind_some]
  exact Contents.foldlM_statements (fun es => root.withElements name (before ++ [es]))
    (fun _ _ v hkey => apply_line hname before hkey v) [] (by simpa using h.distinct)

/-- Each section adds one element, and so the elements stand in the order of the sections. -/
theorem foldlM_sections (before : List Entries) (current : List String) {elements : List Contents}
    (h : ∀ contents ∈ elements, contents.Readable) :
    ∃ last, (elements.flatMap fun contents =>
        .element [name] :: contents.statements).foldlM Statement.apply
          (root.withElements name before, current) =
      some (root.withElements name (before ++ elements.map Contents.entries), last) := by
  induction elements generalizing before current with
  | nil => exact ⟨current, by simp⟩
  | cons contents elements ih =>
    obtain ⟨last, hlast⟩ := ih (before ++ [contents.entries]) [name]
      fun d hd => h d (List.mem_cons_of_mem contents hd)
    refine ⟨last, ?_⟩
    rw [List.flatMap_cons, List.foldlM_append,
      foldlM_section hname before current (h contents List.mem_cons_self), Option.bind_eq_bind,
      Option.bind_some, hlast, List.map_cons, List.append_assoc, List.singleton_append]

end Elements

end Entries

theorem Contents.Readable.read?_write {contents : Contents} (h : contents.Readable) :
    read? (String.ofList contents.write) = some contents.entries := by
  have hreads := h.readsAs ReadsAs.nil
  rw [List.append_nil, List.append_nil] at hreads
  rw [hreads.read?, Entries.ofStatements?, h.foldlM_root]
  rfl

section Sections

variable {name : String} (hbare : isBareKey name = true) {elements : List Contents}
  (hsections : ∀ contents ∈ elements, contents.Readable)
include hbare hsections

theorem ReadsAs.sections :
    ReadsAs (elements.flatMap (Contents.writeSection name))
      (elements.flatMap fun contents => .element [name] :: contents.statements) := by
  induction elements with
  | nil => exact ReadsAs.nil
  | cons contents elements ih =>
    have hrest := ih fun d hd => hsections d (List.mem_cons_of_mem contents hd)
    have hlines := (hsections contents List.mem_cons_self).readsAs hrest
    simpa [Contents.writeSection] using hlines.element name hbare

/-- Lines in front of sections are read with all sections as the elements of one array. -/
theorem read?_sections {first : Contents} (hfirst : first.Readable) (hname : name ∉ first.names) :
    read? (String.ofList (first.write ++ elements.flatMap (Contents.writeSection name))) =
      some (first.entries.withElements name (elements.map Contents.entries)) := by
  rw [← first.names_entries] at hname
  obtain ⟨last, hlast⟩ := Entries.foldlM_sections hname [] [] hsections
  rw [(hfirst.readsAs (ReadsAs.sections hbare hsections)).read?, Entries.ofStatements?,
    List.foldlM_append, hfirst.foldlM_root]
  simp only [Option.bind_eq_bind, Option.bind_some]
  exact congrArg (Option.bind · fun state => some state.1) hlast

end Sections

end Automata.Toml
