import Automata.Toml.StringForm
import Mathlib.Tactic.SplitIfs

namespace Automata.Toml

/-- The digits of a control character spell it. -/
theorem scalar?_control : ∀ code < 0x80, isText (Char.ofNat code) = false →
    scalar? ([code / 0x1000, code / 0x100, code / 0x10, code].map fun d =>
      (Nat.digitChar (d % 0x10)).toUpper) = some (Char.ofNat code) := by
  decide

/-- A character stands as it is, after a backslash, or as a code point. -/
theorem escaped_cases (c : Char) :
    (escaped c = [c] ∧ isText c = true ∧ c ≠ '\\') ∨
    (∃ d ∈ ['\\', 't', 'r', 'b', 'f'], escaped c = ['\\', d] ∧ escape? d = some c) ∨
    ∃ x y z w, escaped c = ['\\', 'u', x, y, z, w] ∧ scalar? [x, y, z, w] = some c := by
  unfold escaped
  split_ifs with hbackslash htab hreturn hback hfeed htext
  · exact .inr (.inl ⟨'\\', by simp, rfl, by rw [hbackslash]; rfl⟩)
  · exact .inr (.inl ⟨'t', by simp, rfl, by rw [htab]; rfl⟩)
  · exact .inr (.inl ⟨'r', by simp, rfl, by rw [hreturn]; rfl⟩)
  · exact .inr (.inl ⟨'b', by simp, rfl, by rw [hback]; rfl⟩)
  · exact .inr (.inl ⟨'f', by simp, rfl, by rw [hfeed]; rfl⟩)
  · exact .inl ⟨rfl, htext, hbackslash⟩
  · have hcode : c.toNat < 0x80 := by
      simp only [isText, Bool.or_eq_true, Bool.and_eq_true, decide_eq_true_eq] at htext
      omega
    have hspelled := scalar?_control c.toNat hcode
    rw [Char.ofNat_toNat] at hspelled
    exact .inr (.inr ⟨_, _, _, _, rfl, hspelled (Bool.eq_false_iff.mpr htext)⟩)

theorem escaped_cons (c : Char) :
    ∃ d more, escaped c = d :: more ∧ isText d = true ∧ (d = '"' → c = '"') := by
  rcases escaped_cases c with ⟨he, ht, _⟩ | ⟨d, _, he, _⟩ | ⟨x, y, z, w, he, _⟩
  · exact ⟨c, _, he, ht, id⟩
  · exact ⟨'\\', _, he, rfl, by simp⟩
  · exact ⟨'\\', _, he, rfl, by simp⟩

theorem basicBody_escaped {c : Char} (h : c ≠ '"') (more : List Char) :
    basicBody (escaped c ++ more) = prepend c (basicBody more) := by
  rcases escaped_cases c with ⟨he, ht, hb⟩ | ⟨d, hd, he, hc⟩ | ⟨x, y, z, w, he, hc⟩
  · rw [he, List.singleton_append, basicBody]
    · simp [h, ht, hb]
    all_goals simp_all
  · rw [he]
    simp only [List.mem_cons, List.not_mem_nil, or_false] at hd
    rcases hd with rfl | rfl | rfl | rfl | rfl <;> simp [basicBody, hc]
  · rw [he]
    simp [basicBody, hc]

/-- A basic string is read up to its closing quote, and its escapes are undone. -/
theorem basicBody_basicText (s rest : List Char) :
    basicBody (basicText s ++ '"' :: rest) = some (s, rest) := by
  induction s with
  | nil => simp [basicText, basicBody]
  | cons c cs ih =>
    unfold basicText
    split
    · rename_i h
      simp [basicBody, escape?, ih, prepend, h]
    split
    · rename_i h
      simp [basicBody, escape?, ih, prepend, h]
    · rename_i h _
      rw [List.append_assoc, basicBody_escaped h, ih]
      rfl

/-- Only the empty string has a quote right after the opening one. -/
theorem basicText_no_pair {s rest : List Char} (hrest : rest.head? ≠ some '"') (tail : List Char) :
    basicText s ++ '"' :: rest ≠ '"' :: '"' :: tail := by
  intro he
  cases s with
  | nil => exact hrest (congrArg List.head? (List.cons.inj he).2)
  | cons c cs =>
    unfold basicText at he
    split at he
    · cases he
    split at he
    · cases he
    · rename_i hc _
      obtain ⟨d, more, hd, _, hfirst⟩ := escaped_cons c
      rw [hd] at he
      exact hc (hfirst (List.cons.inj he).1)

theorem literalBody_append {s : List Char} (h : StringForm.isPlain s .literal = true)
    (rest : List Char) : literalBody (s ++ apostrophe :: rest) = some (s, rest) := by
  induction s with
  | nil => simp [literalBody]
  | cons c cs ih =>
    simp only [StringForm.isPlain, List.all_cons, Bool.and_eq_true, decide_eq_true_eq] at h ih
    obtain ⟨⟨ht, hq⟩, hcs⟩ := h
    rw [List.cons_append, literalBody, if_neg hq, if_pos ht, ih hcs]
    rfl

section LongBasic

theorem longBasicBody_text {c : Char} {more : List Char} (ht : isText c) (hq : c ≠ '"')
    (hb : c ≠ '\\') : longBasicBody .none (c :: more) = prepend c (longBasicBody .none more) := by
  have hn : c ≠ '\n' := by
    rintro rfl
    exact absurd ht (by decide)
  have hr : c ≠ '\r' := by
    rintro rfl
    exact absurd ht (by decide)
  rw [longBasicBody]
  · simp [ht, hb]
  all_goals simp_all

/-- A quote belongs to the text unless two more follow. -/
theorem longBasicBody_quote {more : List Char} (h : ∀ tail, more ≠ '"' :: '"' :: tail) :
    longBasicBody .none ('"' :: more) = prepend '"' (longBasicBody .none more) := by
  rw [longBasicBody]
  · simp [isText]
  all_goals simp_all

theorem longBasicBody_escaped {c : Char} (h : c ≠ '"') (more : List Char) :
    longBasicBody .none (escaped c ++ more) = prepend c (longBasicBody .none more) := by
  rcases escaped_cases c with ⟨he, ht, hb⟩ | ⟨d, hd, he, hc⟩ | ⟨x, y, z, w, he, hc⟩
  · rw [he, List.singleton_append, longBasicBody_text ht h hb]
  · rw [he]
    simp only [List.mem_cons, List.not_mem_nil, or_false] at hd
    rcases hd with rfl | rfl | rfl | rfl | rfl <;> simp [longBasicBody, isBlank, hc]
  · rw [he]
    simp [longBasicBody, hc]

/-- Three to five quotes close the string, and all but the last three belong to it. -/
theorem longBasicBody_close (before : List Char) {rest : List Char}
    (h : before ∈ [[], ['"'], ['"', '"']]) (hrest : rest.head? ≠ some '"') :
    longBasicBody .none (before ++ '"' :: '"' :: '"' :: rest) = some (before, rest) := by
  have hnot : ∀ more, rest ≠ '"' :: more := by
    rintro more rfl
    exact hrest rfl
  simp only [List.mem_cons, List.not_mem_nil, or_false] at h
  rcases h with rfl | rfl | rfl
  all_goals simp [longBasicBody, hnot]

/-- How the written text of a string begins: with a quote only if that is a quote of the string, and
not the third in a row, and with a line feed only if the string does. -/
theorem longBasicText_cons (quotes : Nat) (c : Char) (cs : List Char) :
    ∃ d more, longBasicText quotes (c :: cs) = d :: more ∧ (d = '"' → c = '"' ∧ quotes < 2) ∧
      (isText d = true ∨ d = '\n' ∧ c = '\n') := by
  unfold longBasicText
  split
  · rename_i hc
    split
    · rename_i hlt
      exact ⟨'"', _, rfl, fun _ => ⟨hc, hlt⟩, .inl rfl⟩
    · exact ⟨'\\', _, rfl, by simp, .inl rfl⟩
  split
  · rename_i hc
    exact ⟨'\n', _, rfl, by simp, .inr ⟨rfl, hc⟩⟩
  · rename_i hquote _
    obtain ⟨d, more, he, ht, hd⟩ := escaped_cons c
    rw [he]
    exact ⟨d, _, rfl, fun h => absurd (hd h) hquote, .inl ht⟩

/-- After a quote that is not one of the last two, no two quotes follow. -/
theorem longBasicText_no_pair {quotes : Nat} {cs : List Char} (hempty : cs ≠ [])
    (hquote : quotes = 0 → cs ≠ ['"']) (more tail : List Char) :
    longBasicText (quotes + 1) cs ++ more ≠ '"' :: '"' :: tail := by
  intro he
  obtain ⟨c, cs, rfl⟩ := List.exists_cons_of_ne_nil hempty
  obtain ⟨d, ds, hd, hfirst, _⟩ := longBasicText_cons (quotes + 1) c cs
  rw [hd] at he
  obtain ⟨rfl, htail⟩ := List.cons.inj he
  obtain ⟨rfl, hlt⟩ := hfirst rfl
  obtain rfl : quotes = 0 := by omega
  have hds : ds = longBasicText 2 cs := by
    simpa [longBasicText] using hd.symm
  have hmore : cs ≠ [] := fun hnil => hquote rfl (by rw [hnil])
  obtain ⟨c, cs, rfl⟩ := List.exists_cons_of_ne_nil hmore
  obtain ⟨d, more', hd', hsecond, _⟩ := longBasicText_cons 2 c cs
  subst hds
  rw [hd'] at htail
  exact absurd (hsecond (List.cons.inj htail).1).2 (by decide)

/-- A long basic string is read back, however many quotes stand before it. -/
theorem longBasicBody_longBasicText (quotes : Nat) (s : List Char) {rest : List Char}
    (hrest : rest.head? ≠ some '"') :
    longBasicBody .none (longBasicText quotes s ++ '"' :: '"' :: '"' :: rest) = some (s, rest) := by
  induction s generalizing quotes with
  | nil => exact longBasicBody_close [] (by simp) hrest
  | cons c cs ih =>
    unfold longBasicText
    split
    · rename_i hc
      subst hc
      split
      · rename_i hlt
        by_cases hempty : cs = []
        · subst hempty
          exact longBasicBody_close ['"'] (by simp) hrest
        by_cases hquote : quotes = 0 ∧ cs = ['"']
        · obtain ⟨rfl, rfl⟩ := hquote
          exact longBasicBody_close ['"', '"'] (by simp) hrest
        · rw [List.cons_append, longBasicBody_quote, ih]
          · rfl
          · intro tail
            exact longBasicText_no_pair hempty (fun h he => hquote ⟨h, he⟩) _ tail
      · simp [longBasicBody, isBlank, escape?, ih, prepend]
    split
    · rename_i hc
      simp [longBasicBody, ih, prepend, hc]
    · rename_i hquote _
      rw [List.append_assoc, longBasicBody_escaped hquote, ih]
      rfl

end LongBasic

section LongLiteral

theorem longLiteralBody_text {c : Char} {more : List Char} (h : isText c = true ∨ c = '\n')
    (hq : c ≠ '\x27') : longLiteralBody (c :: more) = prepend c (longLiteralBody more) := by
  have hr : c ≠ '\r' := by
    rintro rfl
    exact absurd h (by decide)
  rw [longLiteralBody]
  · simp [h]
  all_goals simp_all

/-- A quote belongs to the text unless two more follow. -/
theorem longLiteralBody_quote {more : List Char} (h : ∀ tail, more ≠ '\x27' :: '\x27' :: tail) :
    longLiteralBody ('\x27' :: more) = prepend '\x27' (longLiteralBody more) := by
  rw [longLiteralBody]
  · simp [isText]
  all_goals simp_all

theorem longLiteralBody_close (before : List Char) {rest : List Char}
    (h : before ∈ [[], ['\x27'], ['\x27', '\x27']]) (hrest : rest.head? ≠ some '\x27') :
    longLiteralBody (before ++ '\x27' :: '\x27' :: '\x27' :: rest) = some (before, rest) := by
  have hnot : ∀ more, rest ≠ '\x27' :: more := by
    rintro more rfl
    exact hrest rfl
  simp only [List.mem_cons, List.not_mem_nil, or_false] at h
  rcases h with rfl | rfl | rfl
  all_goals simp [longLiteralBody, hnot]

/-- A long literal is read as it stands where it holds no three quotes. -/
theorem longLiteralBody_append {s rest : List Char}
    (htext : ∀ c ∈ s, isText c = true ∨ c = '\n') (hthree : hasThree '\x27' s = false)
    (hrest : rest.head? ≠ some '\x27') :
    longLiteralBody (s ++ '\x27' :: '\x27' :: '\x27' :: rest) = some (s, rest) := by
  induction s with
  | nil => exact longLiteralBody_close [] (by simp) hrest
  | cons c cs ih =>
    simp only [hasThree, Bool.or_eq_false_iff] at hthree
    obtain ⟨hfirst, hthree⟩ := hthree
    have ih := ih (fun d hd => htext d (List.mem_cons_of_mem c hd)) hthree
    by_cases hc : c = '\x27'
    · subst hc
      by_cases hend : cs ∈ [[], ['\x27']]
      · simp only [List.mem_cons, List.not_mem_nil, or_false] at hend
        rcases hend with rfl | rfl
        · exact longLiteralBody_close ['\x27'] (by simp) hrest
        · exact longLiteralBody_close ['\x27', '\x27'] (by simp) hrest
      · rw [List.cons_append, longLiteralBody_quote, ih]
        · rfl
        · intro tail he
          match cs, hend with
          | [d], hend => simp_all
          | d :: e :: ds, _ => simp_all
    · rw [List.cons_append, longLiteralBody_text (htext c List.mem_cons_self) hc, ih]
      rfl

end LongLiteral

theorem dropLineEnd_eq {cs : List Char} (h : ∀ c ∈ cs.head?, isText c = true) :
    dropLineEnd cs = cs := by
  unfold dropLineEnd
  split
  · exact absurd (h '\n' rfl) (by decide)
  · exact absurd (h '\r' rfl) (by decide)
  · rfl

/-- The line end between the quotes and a text of several lines does not count, and a text of one
line begins with none. -/
theorem dropLineEnd_onLines {s text : List Char} {quote : Char} (hquote : isText quote = true)
    (htext : ∀ c ∈ text.head?, isText c = true ∨ c = '\n' ∧ '\n' ∈ s) (more : List Char) :
    dropLineEnd ((if '\n' ∈ s then ['\n'] else []) ++ (text ++ quote :: more)) =
      text ++ quote :: more := by
  split
  · rfl
  · rename_i hline
    apply dropLineEnd_eq
    intro c hc
    cases text with
    | nil =>
      cases hc
      exact hquote
    | cons d ds =>
      cases hc
      exact (htext c rfl).resolve_right fun h => hline h.2

namespace StringForm

/-- Whether a form has the escapes that a string needs in it. -/
def Fits (s : List Char) : StringForm → Prop
  | basic | longBasic => True
  | literal => isPlain s literal = true
  | longLiteral => isPlain s longLiteral = true

theorem choose_fits (s : List Char) : (choose s).Fits s := by
  unfold choose
  split
  · rename_i form h
    have hplain := List.find?_some h
    cases form with
    | basic | longBasic => trivial
    | literal | longLiteral => exact hplain
  · split <;> trivial

end StringForm

theorem readString_basic (s : List Char) {rest : List Char} (hrest : rest.head? ≠ some '"') :
    readString (StringForm.basic.write s ++ rest) = some (s, rest) := by
  change readString ('"' :: (basicText s ++ ['"'] ++ rest)) = _
  rw [List.append_assoc, List.singleton_append, readString, basicBody_basicText]
  exact basicText_no_pair hrest

theorem readString_literal {s rest : List Char} (hplain : StringForm.literal.isPlain s = true)
    (hrest : rest.head? ≠ some '\x27') :
    readString (StringForm.literal.write s ++ rest) = some (s, rest) := by
  change readString ('\x27' :: (s ++ ['\x27'] ++ rest)) = _
  rw [List.append_assoc, List.singleton_append, readString]
  · exact literalBody_append hplain rest
  · intro tail he
    cases s with
    | nil => exact hrest (congrArg List.head? (List.cons.inj he).2)
    | cons c cs =>
      obtain rfl : c = '\x27' := (List.cons.inj he).1
      simp [StringForm.isPlain, apostrophe] at hplain

theorem readString_longBasic (s : List Char) {rest : List Char} (hrest : rest.head? ≠ some '"') :
    readString (StringForm.longBasic.write s ++ rest) = some (s, rest) := by
  change readString ('"' :: '"' :: '"' :: ((if '\n' ∈ s then ['\n'] else []) ++
    longBasicText 0 s ++ ['"', '"', '"'] ++ rest)) = _
  rw [readString, List.append_assoc, List.append_assoc]
  simp only [List.cons_append, List.nil_append]
  rw [dropLineEnd_onLines rfl, longBasicBody_longBasicText 0 s hrest]
  intro c hc
  cases s with
  | nil => cases hc
  | cons d ds =>
    obtain ⟨e, more, he, _, ht⟩ := longBasicText_cons 0 d ds
    rw [he] at hc
    cases hc
    exact ht.imp_right fun h => ⟨h.1, List.mem_cons.mpr (.inl h.2.symm)⟩

theorem readString_longLiteral {s rest : List Char}
    (hplain : StringForm.longLiteral.isPlain s = true) (hrest : rest.head? ≠ some '\x27') :
    readString (StringForm.longLiteral.write s ++ rest) = some (s, rest) := by
  simp only [StringForm.isPlain, Bool.and_eq_true, List.all_eq_true, Bool.or_eq_true,
    decide_eq_true_eq, Bool.not_eq_true'] at hplain
  obtain ⟨htext, hthree⟩ := hplain
  change readString ('\x27' :: '\x27' :: '\x27' :: ((if '\n' ∈ s then ['\n'] else []) ++ s ++
    ['\x27', '\x27', '\x27'] ++ rest)) = _
  rw [readString, List.append_assoc, List.append_assoc]
  simp only [List.cons_append, List.nil_append]
  rw [dropLineEnd_onLines rfl, longLiteralBody_append htext hthree hrest]
  intro c hc
  have hmem := List.mem_of_head? hc
  exact (htext c hmem).imp_right fun h => ⟨h, h ▸ hmem⟩

/-- A string reads back from every form that fits it. -/
theorem readString_write {s rest : List Char} {form : StringForm} (hfits : form.Fits s)
    (hquote : rest.head? ≠ some '"') (happostrophe : rest.head? ≠ some '\x27') :
    readString (form.write s ++ rest) = some (s, rest) := by
  cases form with
  | basic => exact readString_basic s hquote
  | literal => exact readString_literal hfits happostrophe
  | longBasic => exact readString_longBasic s hquote
  | longLiteral => exact readString_longLiteral hfits happostrophe

theorem readString_writeString (s : List Char) {rest : List Char} (hquote : rest.head? ≠ some '"')
    (happostrophe : rest.head? ≠ some '\x27') :
    readString (writeString s ++ rest) = some (s, rest) :=
  readString_write (StringForm.choose_fits s) hquote happostrophe

end Automata.Toml
