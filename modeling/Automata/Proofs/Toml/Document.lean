import Automata.Proofs.Toml.Value
import Automata.Toml.Document

namespace Automata.Toml

theorem isBare_ne {c d : Char} (h : isBare c = true) (hd : isBare d = false) : c ≠ d := by
  rintro rfl
  exact Bool.false_ne_true (hd.symm.trans h)

theorem isBare_not_blank {c : Char} (h : isBare c = true) : isBlank c = false := by
  simp [isBlank, isBare_ne h (d := ' ') rfl, isBare_ne h (d := '\t') rfl]

theorem isBare_of_mem {key : String} (h : isBareKey key = true) :
    ∀ c ∈ key.toList, isBare c = true :=
  List.all_eq_true.mp (Bool.and_eq_true_iff.mp h).2

theorem isBareKey_cons {key : String} (h : isBareKey key = true) :
    ∃ c cs, key.toList = c :: cs ∧ isBare c = true := by
  have hne : key.toList ≠ [] := by simpa using (Bool.and_eq_true_iff.mp h).1
  obtain ⟨c, cs, he⟩ := List.exists_cons_of_ne_nil hne
  exact ⟨c, cs, he, isBare_of_mem h c (he ▸ List.mem_cons_self)⟩

theorem readKey_bare {key : String} (h : isBareKey key = true) {d : Char} (hd : isBare d = false)
    (more : List Char) : readKey (key.toList ++ d :: more) = some (key, d :: more) := by
  have htake : (key.toList ++ d :: more).takeWhile isBare = key.toList := by
    rw [List.takeWhile_append_of_pos (isBare_of_mem h),
      List.takeWhile_cons_of_neg (by simp [hd]), List.append_nil]
  have hdrop : (key.toList ++ d :: more).dropWhile isBare = d :: more := by
    rw [List.dropWhile_append_of_pos (isBare_of_mem h),
      List.dropWhile_cons_of_neg (by simp [hd])]
  obtain ⟨c, cs, he, hc⟩ := isBareKey_cons h
  have hread : readKey (key.toList ++ d :: more) =
      if ((key.toList ++ d :: more).takeWhile isBare).isEmpty then none
      else some (String.ofList ((key.toList ++ d :: more).takeWhile isBare),
        (key.toList ++ d :: more).dropWhile isBare) := by
    rw [he, List.cons_append, readKey]
    · exact fun _ heq => absurd (List.cons.inj heq).1 (isBare_ne hc rfl)
    · exact fun _ heq => absurd (List.cons.inj heq).1 (isBare_ne hc rfl)
  rw [hread, htake, hdrop, String.ofList_toList, if_neg]
  rw [he]
  exact Bool.false_ne_true

theorem skipBlanks_bare {key : String} (h : isBareKey key = true) (more : List Char) :
    skipBlanks (key.toList ++ more) = key.toList ++ more := by
  obtain ⟨c, cs, he, hc⟩ := isBareKey_cons h
  rw [he, List.cons_append, skipBlanks, List.dropWhile_cons_of_neg]
  simp [isBare_not_blank hc]

/-- A bare key in front of an equals sign or a bracket is a path of its own. -/
theorem readPath_bare {key : String} (h : isBareKey key = true) (more : List Char) :
    readPath nestingLimit (key.toList ++ ' ' :: '=' :: more) = some ([key], '=' :: more) ∧
      readPath nestingLimit (key.toList ++ ']' :: more) = some ([key], ']' :: more) := by
  constructor
  · rw [show nestingLimit = 79 + 1 from rfl, readPath, skipBlanks_bare h, readKey_bare h rfl]
    rfl
  · rw [show nestingLimit = 79 + 1 from rfl, readPath, skipBlanks_bare h, readKey_bare h rfl]
    rfl

/-- A text reads as these statements with any fuel that exceeds its length. -/
def ReadsAs (cs : List Char) (statements : List Statement) : Prop :=
  ∀ fuel, cs.length < fuel → readStatements fuel cs = some statements

theorem ReadsAs.nil : ReadsAs [] [] := by
  intro fuel hfuel
  obtain ⟨fuel, rfl⟩ := Nat.exists_eq_add_one.mpr (Nat.zero_lt_of_lt hfuel)
  rfl

/-- A statement that ends its line, in front of more lines. -/
theorem readStatements_of_read {fuel : Nat} {cs start more : List Char} {statement : Statement}
    (hskip : skipFill false cs = some start) (hne : start ≠ [])
    (hread : readStatement fuel start = some (statement, '\n' :: more)) :
    readStatements (fuel + 1) cs = (readStatements fuel more).map (statement :: ·) := by
  obtain ⟨c, rest, rfl⟩ := List.exists_cons_of_ne_nil hne
  have hend : endLine false ('\n' :: more) = some more := rfl
  rw [readStatements, hskip]
  simp only [Option.bind_eq_bind, Option.bind_some, hread, hend]
  cases readStatements fuel more <;> rfl

variable {more : List Char} {statements : List Statement}

/-- A line of a document in front of more lines. -/
theorem ReadsAs.line {text : List Char} {v : Value} (h : ReadsAs more statements) (key : String)
    (hkey : isBareKey key = true) (hv : StandsFor text v) :
    ReadsAs (writeLine key text ++ more) (.assignment [key] v :: statements) := by
  intro fuel hfuel
  obtain ⟨fuel, rfl⟩ := Nat.exists_eq_add_one.mpr (Nat.zero_lt_of_lt hfuel)
  have hline : writeLine key text ++ more =
      key.toList ++ ' ' :: '=' :: ' ' :: (text ++ '\n' :: more) := by
    simp [writeLine]
  rw [hline] at hfuel ⊢
  simp only [List.length_append, List.length_cons] at hfuel
  have hpath := (readPath_bare hkey (' ' :: (text ++ '\n' :: more))).1
  have hvalue : readValue fuel nestingLimit (text ++ '\n' :: more) = some (v, '\n' :: more) :=
    hv.read (by omega) ⟨'\n', by simp, more, rfl⟩ 79
  have hblank : skipBlanks (' ' :: (text ++ '\n' :: more)) = text ++ '\n' :: more := by
    obtain ⟨c, cs, he, hc⟩ := hv.start
    rw [he, skipBlanks, List.dropWhile_cons_of_pos rfl, List.cons_append,
      List.dropWhile_cons_of_neg (by simp [hc])]
  obtain ⟨c, cs, he, hc⟩ := isBareKey_cons hkey
  rw [he, List.cons_append] at hpath ⊢
  have hread : readStatement fuel (c :: (cs ++ ' ' :: '=' :: ' ' :: (text ++ '\n' :: more))) =
      some (.assignment [key] v, '\n' :: more) := by
    rw [readStatement]
    · simp only [Option.bind_eq_bind, hpath, Option.bind_some, expect, if_true, hblank, hvalue]
      rfl
    · exact fun _ heq => absurd (List.cons.inj heq).1 (isBare_ne hc rfl)
    · exact fun _ heq => absurd (List.cons.inj heq).1 (isBare_ne hc rfl)
  rw [readStatements_of_read _ (List.cons_ne_nil _ _) hread, h fuel (by omega)]
  · rfl
  · simp [skipFill, isBare_not_blank hc, isBare_ne hc (d := '\n') rfl, isBare_ne hc (d := '\r') rfl,
      isBare_ne hc (d := '#') rfl]

/-- The header of one more element in an array of tables, after an empty line. -/
theorem ReadsAs.element (h : ReadsAs more statements) (key : String) (hkey : isBareKey key = true) :
    ReadsAs ('\n' :: '[' :: '[' :: key.toList ++ ']' :: ']' :: '\n' :: more)
      (.element [key] :: statements) := by
  intro fuel hfuel
  obtain ⟨fuel, rfl⟩ := Nat.exists_eq_add_one.mpr (Nat.zero_lt_of_lt hfuel)
  simp only [List.length_append, List.length_cons] at hfuel
  have hpath := (readPath_bare hkey (']' :: '\n' :: more)).2
  have hread : readStatement fuel ('[' :: '[' :: (key.toList ++ ']' :: ']' :: '\n' :: more)) =
      some (.element [key], '\n' :: more) := by
    rw [readStatement]
    simp only [Option.bind_eq_bind, hpath, Option.bind_some, expect, if_true]
    rfl
  have hskip : skipFill false ('\n' :: '[' :: '[' :: (key.toList ++ ']' :: ']' :: '\n' :: more)) =
      some ('[' :: '[' :: (key.toList ++ ']' :: ']' :: '\n' :: more)) := by
    simp [skipFill, isBlank]
  change readStatements (fuel + 1)
    ('\n' :: '[' :: '[' :: (key.toList ++ ']' :: ']' :: '\n' :: more)) = _
  rw [readStatements_of_read hskip (List.cons_ne_nil _ _) hread, h fuel (by omega)]
  rfl

/-- What is done to a key passes by entries with other keys. -/
theorem Entries.update_append {es : Entries} {key : String} (h : key ∉ es.map Prod.fst)
    (f : Option Value → Option Value) (others : Entries) :
    update key f (es ++ others) = (update key f others).map (es ++ ·) := by
  induction es with
  | nil => simp
  | cons e es ih =>
    simp only [List.map_cons, List.mem_cons, not_or] at h
    rw [List.cons_append, update, if_neg (Ne.symm h.1), ih h.2, Option.map_map]
    rfl

theorem Entries.update_of_notMem {es : Entries} {key : String} (h : key ∉ es.map Prod.fst)
    (f : Option Value → Option Value) :
    update key f es = (f none).map fun v => es ++ [(key, v)] := by
  have hadd := update_append h f []
  rwa [List.append_nil, update, Option.map_map] at hadd

theorem Entries.insert_of_notMem {es : Entries} {key : String} (h : key ∉ es.map Prod.fst)
    (v : Value) : es.insert key v = some (es ++ [(key, v)]) :=
  update_of_notMem h _

/-- In front of all headers, a line with a new key adds an entry to the table itself. -/
theorem Statement.apply_assignment {root : Entries} {key : String} (h : key ∉ root.map Prod.fst)
    (v : Value) : Statement.apply (root, []) (.assignment [key] v) =
      some (root ++ [(key, v)], []) := by
  simp [Statement.apply, Entries.within, Entries.assign, Entries.insert_of_notMem h]

/-- No statement begins with the mark that may tell the encoding of a text. -/
theorem ReadsAs.head?_ne {cs : List Char} (h : ReadsAs cs statements) :
    cs.head? ≠ some '\ufeff' := by
  intro hmark
  obtain ⟨rest, rfl⟩ := List.head?_eq_some_iff.mp hmark
  have hread := h (rest.length + 3) (by simp)
  have hskip : skipFill false ('\ufeff' :: rest) = some ('\ufeff' :: rest) := by
    simp [skipFill, isBlank]
  have hpath : readPath nestingLimit ('\ufeff' :: rest) = none := by
    have hbare : isBare '\ufeff' = false := by decide
    have hblank : skipBlanks ('\ufeff' :: rest) = '\ufeff' :: rest := by simp [skipBlanks, isBlank]
    rw [show nestingLimit = 79 + 1 from rfl, readPath, hblank]
    simp [readKey, hbare]
  simp [readStatements, hskip, readStatement, hpath] at hread

theorem ReadsAs.read? {cs : List Char} (h : ReadsAs cs statements) :
    read? (String.ofList cs) = Entries.ofStatements? statements := by
  have hdrop : dropMark (String.ofList cs).toList = cs := by
    rw [String.toList_ofList]
    unfold dropMark
    split
    · exact absurd rfl h.head?_ne
    · rfl
  simp only [Toml.read?, hdrop, Option.bind_eq_bind, h _ (by omega : cs.length < 2 * cs.length + 2),
    Option.bind_some]

end Automata.Toml
