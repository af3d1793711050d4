import Automata.Proofs.Toml.Contents
import Automata.Proofs.Toml.Laws

namespace Automata.Toml

/-- The line of a field, where it has one. -/
def Content.line (name : String) (content : Option Content) : Contents :=
  (content.map (name, ·)).toList

theorem Content.names_line (name : String) (content : Option Content) :
    ∀ key ∈ (line name content).names, key = name := by
  cases content <;> simp [line, Contents.names]

namespace Cell

theorem sound_content? {α : Type} {cell : Cell α} {x : α} {content : Content}
    (h : cell.content? x = some (some content)) : content.Sound := by
  have hencode : ∀ {β : Type} [Coded β] (xs : List β), (Content.list (xs.map encode)).Sound := by
    intro β _ xs s hs
    obtain ⟨y, -, rfl⟩ := List.mem_map.mp hs
    exact ⟨isWritten_encode y, isStorable_encode y⟩
  have hscalar : ∀ {β : Type} [Coded β] (y : β), (Content.scalar (encode y)).Sound := by
    intro β _ y s hs
    rw [List.mem_singleton.mp hs]
    exact ⟨isWritten_encode y, isStorable_encode y⟩
  cases cell with
  | one => simp only [content?, Option.some.injEq] at h; exact h ▸ hscalar x
  | option =>
    simp only [content?, Option.some.injEq, Option.map_eq_some_iff] at h
    obtain ⟨y, -, rfl⟩ := h
    exact hscalar y
  | list => simp only [content?, Option.some.injEq] at h; exact h ▸ hencode x
  | gaps =>
    simp only [content?, Option.map_eq_some_iff, Option.some.injEq] at h
    obtain ⟨ys, -, rfl⟩ := h
    exact hencode ys

end Cell

namespace Fields

variable {σ : Type}

/-- A structure can be written if each of its fields can. -/
theorem contents?_cons {α : Type} {name : String} {cell : Cell α} {more : Fields σ} {x : α} {y : σ}
    {contents : Contents} : (cons name cell more).contents? (x, y) = some contents ↔
      ∃ content others, cell.content? x = some content ∧ more.contents? y = some others ∧
        contents = Content.line name content ++ others := by
  rw [contents?]
  cases cell.content? x with
  | none => simp
  | some content =>
    cases more.contents? y with
    | none => simp
    | some others => simp [Content.line, eq_comm]

theorem names_contents? {fields : Fields σ} {x : σ} {contents : Contents}
    (h : fields.contents? x = some contents) : contents.names.Sublist fields.names := by
  induction fields generalizing contents with
  | nil => cases h; exact .slnil
  | cons name cell more ih =>
    obtain ⟨content, others, -, hothers, rfl⟩ := contents?_cons.mp h
    cases content with
    | none => exact (ih hothers).cons name
    | some content => exact (ih hothers).cons_cons name

theorem sound_contents? {fields : Fields σ} {x : σ} {contents : Contents}
    (h : fields.contents? x = some contents) : ∀ e ∈ contents, e.2.Sound := by
  induction fields generalizing contents with
  | nil => cases h; simp
  | cons name cell more ih =>
    obtain ⟨content, others, hcontent, hothers, rfl⟩ := contents?_cons.mp h
    intro e he
    rcases List.mem_append.mp he with he | he
    · cases content with
      | none => cases he
      | some content =>
        rw [List.mem_singleton.mp he]
        exact Cell.sound_content? hcontent
    · exact ih hothers e he

theorem Proper.of_cons {α : Type} {name : String} {cell : Cell α} {more : Fields σ}
    (h : (cons name cell more).Proper) :
    isBareKey name = true ∧ name ∉ more.names ∧ more.Proper :=
  ⟨h.2 name List.mem_cons_self, (List.nodup_cons.mp h.1).1, (List.nodup_cons.mp h.1).2,
    fun key hkey => h.2 key (List.mem_cons_of_mem name hkey)⟩

theorem ofEntries?_cons {α : Type} {name : String} {cell : Cell α} {more : Fields σ} {es : Entries}
    {x : α} {y : σ} : (cons name cell more).ofEntries? es = some (x, y) ↔
      cell.decode? (es.lookup name) = some x ∧ more.ofEntries? es = some y := by
  rw [ofEntries?]
  cases cell.decode? (es.lookup name) with
  | none => simp
  | some z => cases more.ofEntries? es <;> simp

theorem contents?_single {α : Type} {name : String} {cell : Cell α} {x : α} :
    (single name cell).contents? (x, ()) = (cell.content? x).map (Content.line name) := by
  cases hcell : cell.content? x <;> simp [single, contents?, hcell, Content.line]

theorem ofEntries?_single {α : Type} {name : String} {cell : Cell α} {es : Entries} {x : α} :
    (single name cell).ofEntries? es = some (x, ()) ↔ cell.decode? (es.lookup name) = some x := by
  rw [single, ofEntries?_cons]
  simp [ofEntries?]

theorem Proper.readable {fields : Fields σ} (hproper : fields.Proper) {x : σ} {contents : Contents}
    (h : fields.contents? x = some contents) : contents.Readable where
  distinct := (names_contents? h).nodup hproper.1
  bare name hname := hproper.2 name ((names_contents? h).subset hname)
  sound := sound_contents? h

/-- Fields are read by their names only. -/
theorem ofEntries?_congr {fields : Fields σ} {es es' : Entries}
    (h : ∀ name ∈ fields.names, es.lookup name = es'.lookup name) :
    fields.ofEntries? es = fields.ofEntries? es' := by
  induction fields with
  | nil => rfl
  | cons name cell more ih =>
    rw [ofEntries?, ofEntries?, h name List.mem_cons_self,
      ih fun key hkey => h key (List.mem_cons_of_mem name hkey)]

end Fields

theorem Contents.lookup_eq_none {contents : Contents} {name : String} (h : name ∉ contents.names) :
    contents.entries.lookup name = none := by
  rw [← names_entries] at h
  rw [List.lookup_eq_none_iff]
  intro e he
  simpa using fun heq : name = e.1 => h (heq ▸ List.mem_map_of_mem he)

section Records

variable {σ τ : Type} {written : Fields σ} {x : σ} {read : Fields τ} {y : τ}

theorem Shape.ofEntries?_record {es : Entries} : (record read).ofEntries? es = some y ↔
    es.ignorable read.names = true ∧ read.ofEntries? es = some y := by
  by_cases hignored : es.ignorable read.names = true <;> simp [ofEntries?, guard, hignored]

theorem write_record_eq_none_iff :
    codec.write (.record written) x = none ↔ written.contents? x = none := by
  simp [codec, Shape.write?]

/-- One record is read from what is written for another if it is read from the entries of it. -/
theorem carries_record_iff (hproper : written.Proper) :
    codec.Carries (.record written) x (.record read) y ↔
      ∃ contents, written.contents? x = some contents ∧
        read.ofEntries? contents.entries = some y := by
  have hread : ∀ {contents}, written.contents? x = some contents →
      codec.read (.record read) (String.ofList contents.write) =
        read.ofEntries? contents.entries := by
    intro contents hcontents
    have hreadable := hproper.readable hcontents
    simp [codec, hreadable.read?_write, Shape.ofEntries?, guard, hreadable.ignorable]
  constructor
  · rintro ⟨text, hwrite, htext⟩
    obtain ⟨cs, hcs, rfl⟩ := Option.map_eq_some_iff.mp hwrite
    obtain ⟨contents, hcontents, rfl⟩ := Option.map_eq_some_iff.mp hcs
    exact ⟨contents, hcontents, (hread hcontents).symm.trans htext⟩
  · rintro ⟨contents, hcontents, hentries⟩
    exact ⟨_, by simp [codec, Shape.write?, hcontents], (hread hcontents).trans hentries⟩

end Records

section Singles

variable {name : String} {α : Type} [coded : Coded α]

theorem Fields.proper_single {β : Type} {cell : Cell β} (hbare : isBareKey name = true) :
    (Fields.single name cell).Proper := by
  simp [Proper, single, names, hbare]

theorem keeps_one (hbare : isBareKey name = true) (x : α) :
    codec.Keeps (.record (.single name (.one α))) (x, ()) := by
  refine (carries_record_iff (Fields.proper_single hbare)).mpr
    ⟨[(name, .scalar (encode x))], rfl, ?_⟩
  exact Fields.ofEntries?_single.mpr
    (by simp [Cell.decode?, Contents.entries, Content.value, decode?_encode])

theorem keeps_list (hbare : isBareKey name = true) (xs : List α) :
    codec.Keeps (.record (.single name (.list α))) (xs, ()) := by
  have hdecode : ((xs.map encode).map Value.scalar).mapM Value.decode? = some xs := by
    rw [List.map_map]
    exact mapM_map_eq_some fun x _ => decode?_encode x
  refine (carries_record_iff (Fields.proper_single hbare)).mpr
    ⟨[(name, .list (xs.map encode))], rfl, ?_⟩
  exact Fields.ofEntries?_single.mpr (by simpa [Cell.decode?, Contents.entries, Content.value,
    Value.list?] using hdecode)

theorem write_encode {x : α} {digits : String} (h : inDecimal? x = some digits) :
    (encode x).write = digits.toList := by
  cases coded with
  | string | char | bool => cases h
  | uint32 | uint64 | int64 =>
    rw [← Option.some.inj h]
    exact congrArg String.toList (literal_eq_toString _)

theorem write_number {x : α} {digits : String} (h : inDecimal? x = some digits) :
    codec.write (.record (.single name (.one α))) (x, ()) =
      some (name ++ " = " ++ digits ++ "\n") := by
  have hline : writeLine name (encode x).write = (name ++ " = " ++ digits ++ "\n").toList := by
    simp [writeLine, write_encode h]
  change some (String.ofList (writeLine name (encode x).write ++ [])) = _
  rw [List.append_nil, hline, String.ofList_toList]

theorem read_single_eq_some_iff {β : Type} {cell : Cell β} {x : β} {text : String} :
    codec.read (.record (.single name cell)) text = some (x, ()) ↔
      ∃ es, read? text = some es ∧ es.ignorable [name] = true ∧
        cell.decode? (es.lookup name) = some x := by
  simp only [codec, Option.bind_eq_some_iff]
  exact exists_congr fun es => and_congr_right fun _ =>
    Shape.ofEntries?_record.trans (and_congr_right fun _ => Fields.ofEntries?_single)

end Singles

section Rows

variable {σ τ : Type} {name : String} {fields : Fields σ} {row : Fields τ}

/-- Rows that are kept alone are kept together. -/
theorem mapM_rows {rows : List τ} (hrow : row.Proper)
    (h : ∀ r ∈ rows, codec.Keeps (.record row) r) :
    ∃ elements : List Contents, rows.mapM row.contents? = some elements ∧
      (∀ contents ∈ elements, contents.Readable) ∧
      elements.mapM (fun contents => row.ofValue? (.table .header contents.entries)) = some rows := by
  induction rows with
  | nil => exact ⟨[], rfl, by simp, rfl⟩
  | cons r rows ih =>
    obtain ⟨elements, hwrite, hreadable, hread⟩ := ih fun q hq => h q (List.mem_cons_of_mem r hq)
    obtain ⟨contents, hcontents, hentries⟩ :=
      (carries_record_iff hrow).mp (h r List.mem_cons_self)
    have hfirst := hrow.readable hcontents
    refine ⟨contents :: elements, ?_, ?_, ?_⟩
    · rw [List.mapM_cons, hcontents, hwrite]
      rfl
    · exact List.forall_mem_cons.mpr ⟨hfirst, hreadable⟩
    · have hvalue : row.ofValue? (.table .header contents.entries) = some r := by
        simp [Fields.ofValue?, guard, hfirst.ignorable, hentries]
      rw [List.mapM_cons, hvalue, hread]
      rfl

/-- What is written for a list of structures reads as an array of them, also without any. -/
theorem read?_listing {first : Contents} {elements : List Contents} {rows : List τ}
    (hbare : isBareKey name = true) (hname : name ∉ first.names) (hfirst : first.Readable)
    (helements : ∀ contents ∈ elements, contents.Readable)
    (hrows : elements.mapM (fun contents => row.ofValue? (.table .header contents.entries)) =
      some rows) :
    ∃ v, v.list? row.ofValue? = some rows ∧
      read? (String.ofList (first.writeListing name elements)) =
        some (first.entries ++ [(name, v)]) := by
  cases elements with
  | nil =>
    have hempty : (Content.list []).Sound := fun _ hs => absurd hs List.not_mem_nil
    have hread := (hfirst.concat hbare hname hempty).read?_write
    have hwrite : (first ++ [(name, .list [])] : Contents).write =
        first.write ++ writeLine name ['[', ']'] := by
      simp [Contents.write, Content.write, writeList, writeItems]
    have hentries : (first ++ [(name, .list [])] : Contents).entries =
        first.entries ++ [(name, .array [])] := by
      simp [Contents.entries, Content.value]
    rw [hwrite, hentries] at hread
    exact ⟨.array [], hrows, hread⟩
  | cons contents elements =>
    refine ⟨.tables ((contents :: elements).map Contents.entries), ?_, ?_⟩
    · rw [Value.list?, List.mapM_map]
      exact hrows
    · exact read?_sections hbare helements hfirst hname

/-- A structure and its rows are kept together. -/
theorem keeps_rows {x : σ} {rows : List τ} (hbare : isBareKey name = true)
    (hname : name ∉ fields.names) (hfields : fields.Proper) (hrow : row.Proper)
    (hx : codec.Keeps (.record fields) x) (hrows : ∀ r ∈ rows, codec.Keeps (.record row) r) :
    codec.Keeps (.listing fields name row) (x, rows) := by
  obtain ⟨first, hwrite, hread⟩ := (carries_record_iff hfields).mp hx
  obtain ⟨elements, hwrites, hreadable, hreads⟩ := mapM_rows hrow hrows
  have hfirst := hfields.readable hwrite
  have hnew : name ∉ first.names := fun h => hname ((Fields.names_contents? hwrite).subset h)
  obtain ⟨v, hv, hdocument⟩ := read?_listing hbare hnew hfirst hreadable hreads
  have hfields : fields.ofEntries? (first.entries ++ [(name, v)]) = some x := by
    rw [← hread]
    refine Fields.ofEntries?_congr fun key hkey => ?_
    have hother : ([(name, v)] : Entries).lookup key = none := by
      simpa using fun heq : key = name => hname (heq ▸ hkey)
    rw [List.lookup_append, hother, Option.or_none]
  have hlast : (first.entries ++ [(name, v)]).lookup name = some v := by
    rw [List.lookup_append, Contents.lookup_eq_none hnew]
    simp
  have hignored : Entries.ignorable (name :: fields.names) (first.entries ++ [(name, v)]) = true := by
    simp [Entries.ignorable, hfirst.entriesStorable]
  have htext : codec.write (.listing fields name row) (x, rows) =
      some (String.ofList (first.writeListing name elements)) := by
    simp only [codec, Shape.write?, hwrite, hwrites]
    rfl
  refine ⟨_, htext, ?_⟩
  change (read? _).bind _ = _
  rw [hdocument]
  simp [Shape.ofEntries?, guard, hignored, hfields, hlast, hv]

end Rows

section Several

variable {σ τ : Type} {written : Fields σ} {more : Fields τ} {name : String}

/-- A field that has no line reads as nothing. -/
theorem carries_none {α : Type} [Coded α] {x : σ} {y : τ} (hwritten : written.Proper)
    (hname : name ∉ written.names) (h : codec.Carries (.record written) x (.record more) y) :
    codec.Carries (.record written) x (.record (.cons name (.option α) more)) (none, y) := by
  rw [carries_record_iff hwritten] at h ⊢
  obtain ⟨contents, hcontents, hentries⟩ := h
  have hnone := Contents.lookup_eq_none fun h => hname ((Fields.names_contents? hcontents).subset h)
  refine ⟨contents, hcontents, ?_⟩
  simp [Fields.ofEntries?, Cell.decode?, hnone, hentries]

/-- The first of several fields is read of its own line, and the others of theirs. -/
theorem carries_cons {α α' : Type} {cell : Cell α} {cell' : Cell α'} {x : α} {x' : α'} {y : σ}
    {y' : τ} (hproper : (Fields.cons name cell written).Proper)
    (hproper' : (Fields.cons name cell' more).Proper)
    (hfirst : codec.Carries (.record (.single name cell)) (x, ())
      (.record (.single name cell')) (x', ()))
    (hmore : codec.Carries (.record written) y (.record more) y') :
    codec.Carries (.record (.cons name cell written)) (x, y)
      (.record (.cons name cell' more)) (x', y') := by
  obtain ⟨hbare, hname, hwritten⟩ := hproper.of_cons
  obtain ⟨-, hname', -⟩ := hproper'.of_cons
  obtain ⟨first, hfirst, hread⟩ := (carries_record_iff (Fields.proper_single hbare)).mp hfirst
  obtain ⟨others, hothers, hreads⟩ := (carries_record_iff hwritten).mp hmore
  rw [Fields.contents?_single] at hfirst
  obtain ⟨content, hcontent, rfl⟩ := Option.map_eq_some_iff.mp hfirst
  refine (carries_record_iff hproper).mpr ⟨Content.line name content ++ others,
    Fields.contents?_cons.mpr ⟨content, others, hcontent, hothers, rfl⟩, ?_⟩
  rw [Contents.entries_append, Fields.ofEntries?_cons, List.lookup_append]
  constructor
  · have hnone := Contents.lookup_eq_none fun h => hname ((Fields.names_contents? hothers).subset h)
    rw [hnone, Option.or_none]
    exact Fields.ofEntries?_single.mp hread
  · rw [← hreads]
    refine Fields.ofEntries?_congr fun key hkey => ?_
    have hnone : (Content.line name content).entries.lookup key = none :=
      Contents.lookup_eq_none fun h => hname' (Content.names_line name content key h ▸ hkey)
    rw [List.lookup_append, hnone, Option.none_or]

end Several

theorem codec_fieldLaws : codec.FieldLaws where
  number_written _ := write_number
  number_accepted := by
    intro name hbare α _ x digits hdigits
    obtain ⟨text, hwrite, hread⟩ := keeps_one hbare x
    rw [write_number hdigits] at hwrite
    exact Option.some.inj hwrite ▸ hread
  field := carries_cons

/-- A field that may be left out is written and read as it is relied on. -/
theorem codec_optionalLaws : codec.OptionalLaws where
  toFieldLaws := codec_fieldLaws
  some_written := by
    intro name α _ x
    rfl
  some_read := by
    intro name α _ x text hread
    obtain ⟨es, hes, hignored, hdecode⟩ := read_single_eq_some_iff.mp hread
    refine read_single_eq_some_iff.mpr ⟨es, hes, hignored, ?_⟩
    obtain ⟨v, hv, hx⟩ := Option.bind_eq_some_iff.mp hdecode
    simp [Cell.decode?, hv, hx]
  none_written := by
    intro name α _ β more y
    cases hmore : more.contents? y <;>
      simp [codec, Shape.write?, Fields.contents?, Cell.content?, hmore]
  none_read := carries_none

/-- Lists of values and of structures are written and read as it is relied on. -/
theorem codec_listLaws : codec.ListLaws where
  toFieldLaws := codec_fieldLaws
  string hbare s := keeps_one hbare s
  char hbare a := keeps_one hbare a
  bool hbare b := keeps_one hbare b
  list hbare := by
    intro α _ xs _
    exact keeps_list hbare xs
  gap_refused := by
    intro name α _ xs hnone
    have hgap : xs.mapM id = none := mapM_eq_none_iff.mpr ⟨none, hnone, rfl⟩
    simp [write_record_eq_none_iff, Fields.contents?_single, Cell.content?, hgap]
  gapless_written := by
    intro name α _ xs
    have hall : (xs.map some).mapM id = some xs := mapM_map_eq_some fun _ _ => rfl
    simp [codec, Shape.write?, Fields.contents?_single, Cell.content?, hall]
  gapless_read := by
    intro name α _ xs text hread
    obtain ⟨es, hes, hignored, hdecode⟩ := read_single_eq_some_iff.mp hread
    refine read_single_eq_some_iff.mpr ⟨es, hes, hignored, ?_⟩
    simp only [Cell.decode?] at hdecode ⊢
    rw [hdecode, Option.map_some]
  field_refused := by
    intro name α β cell more x y h
    simp only [write_record_eq_none_iff] at h ⊢
    refine Option.eq_none_iff_forall_ne_some.mpr fun contents hcontents => ?_
    obtain ⟨content, others, hcontent, hothers, -⟩ := Fields.contents?_cons.mp hcontents
    simp [Fields.contents?_single, hcontent, hothers] at h
  rows hbare hname := keeps_rows hbare hname
  row_refused := by
    intro name σ τ fields row x rows r hr hnone
    have hrows : rows.mapM row.contents? = none :=
      mapM_eq_none_iff.mpr ⟨r, hr, write_record_eq_none_iff.mp hnone⟩
    cases hfields : fields.contents? x <;> simp [codec, Shape.write?, hfields, hrows]

end Automata.Toml
