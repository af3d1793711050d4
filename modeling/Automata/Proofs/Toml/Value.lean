import Automata.Proofs.Toml.Number
import Automata.Proofs.Toml.Quoted
import Automata.Toml.Coded

namespace Automata.Toml

/-- Whether a scalar is one that values of the library are written as. -/
def Scalar.isWritten : Scalar → Bool
  | string _ | integer _ | boolean _ => true
  | float _ | moment _ => false

/-- What comes after a value where it is written: more of a list, its end, or that of the line. -/
def Delimited (rest : List Char) : Prop :=
  ∃ c ∈ [',', ']', '\n'], ∃ more, rest = c :: more

def startsScalar (c : Char) : Bool :=
  c = '"' || c = '\x27' || isPlain c

theorem Delimited.head?_ne {rest : List Char} (h : Delimited rest) {c : Char}
    (hc : c ∉ [',', ']', '\n']) : rest.head? ≠ some c := by
  obtain ⟨d, hd, more, rfl⟩ := h
  intro he
  exact hc (Option.some.inj he ▸ hd)

theorem plainText_append {first rest : List Char} (hplain : ∀ c ∈ first, isPlain c = true)
    (hrest : Delimited rest) : plainText (first ++ rest) = (first, rest) := by
  have hblank : ∀ c more, rest ≠ ' ' :: c :: more := by
    rintro c more rfl
    exact hrest.head?_ne (by decide) rfl
  have hstop : rest.takeWhile isPlain = [] ∧ rest.dropWhile isPlain = rest := by
    obtain ⟨c, hc, more, rfl⟩ := hrest
    simp only [List.mem_cons, List.not_mem_nil, or_false] at hc
    rcases hc with rfl | rfl | rfl <;> exact ⟨rfl, rfl⟩
  have htake : (first ++ rest).takeWhile isPlain = first := by
    rw [List.takeWhile_append_of_pos hplain, hstop.1, List.append_nil]
  have hdrop : (first ++ rest).dropWhile isPlain = rest := by
    rw [List.dropWhile_append_of_pos hplain, hstop.2]
  simp only [plainText, htake, hdrop]

theorem readScalar_plain {text rest : List Char} (hne : text ≠ [])
    (hplain : ∀ c ∈ text, isPlain c = true) (hrest : Delimited rest) :
    readScalar (text ++ rest) = (plainScalar? text).map fun s => (s, rest) := by
  obtain ⟨c, cs, rfl⟩ := List.exists_cons_of_ne_nil hne
  have hc := hplain c List.mem_cons_self
  have hquote : c ≠ '"' ∧ c ≠ apostrophe := by
    constructor <;> (rintro rfl; exact absurd hc (by decide))
  simp only [readScalar, List.cons_append, List.head?_cons, Option.some.injEq, hquote,
    Bool.or_self, if_false, decide_false, Bool.false_eq_true]
  rw [← List.cons_append, plainText_append hplain hrest]

theorem isPlain_of_mem_literal {n : Int} {c : Char} (h : c ∈ (literal n).toList) : isPlain c = true := by
  have hdigit : ∀ {k : Nat}, c ∈ Nat.toDigits 10 k → isPlain c = true := by
    intro k hk
    simp [isPlain, Char.isAlphanum, isDigit_of_mem_toDigits hk]
  cases n with
  | ofNat n => exact hdigit (toList_literal_ofNat n ▸ h)
  | negSucc n =>
    rw [toList_literal_negSucc] at h
    rcases List.mem_cons.mp h with rfl | h
    · decide
    · exact hdigit h

/-- A text that shows an integer shows nothing else. -/
theorem plainScalar?_of_integer {text : List Char} {n : Int} (h : integer? text = some n) :
    plainScalar? text = some (.integer n) := by
  have htrue : text ≠ ['t', 'r', 'u', 'e'] := by
    rintro rfl
    cases h
  have hfalse : text ≠ ['f', 'a', 'l', 's', 'e'] := by
    rintro rfl
    cases h
  simp only [plainScalar?, htrue, hfalse, if_false, h]

/-- A written string begins with a quote. -/
theorem writeString_cons (s : List Char) :
    ∃ c more, writeString s = c :: more ∧ (c = '"' ∨ c = '\x27') := by
  unfold writeString
  cases StringForm.choose s with
  | basic => exact ⟨'"', _, rfl, .inl rfl⟩
  | literal => exact ⟨'\x27', _, rfl, .inr rfl⟩
  | longBasic => exact ⟨'"', _, rfl, .inl rfl⟩
  | longLiteral => exact ⟨'\x27', _, rfl, .inr rfl⟩

theorem literal_ne_nil (n : Int) : (literal n).toList ≠ [] := by
  intro hnil
  have hvalue := integer?_literal n
  rw [hnil] at hvalue
  cases hvalue

/-- A scalar is read back from before any delimiter. -/
theorem readScalar_write {s : Scalar} (h : s.isWritten = true) {rest : List Char}
    (hrest : Delimited rest) : readScalar (s.write ++ rest) = some (s, rest) := by
  cases s with
  | string text =>
    have hread := readString_writeString text.toList (hrest.head?_ne (by decide))
      (hrest.head?_ne (by decide))
    obtain ⟨c, more, he, hc⟩ := writeString_cons text.toList
    change readScalar (writeString text.toList ++ rest) = _
    have hquote : (writeString text.toList ++ rest).head? = some '"' ∨
        (writeString text.toList ++ rest).head? = some apostrophe := by
      rw [he]
      exact hc.imp (congrArg some) (congrArg some)
    rw [readScalar, if_pos (by simpa using hquote), hread]
    simp
  | integer n =>
    change readScalar ((literal n).toList ++ rest) = _
    rw [readScalar_plain (literal_ne_nil n) (fun c => isPlain_of_mem_literal) hrest,
      plainScalar?_of_integer (integer?_literal n)]
    rfl
  | boolean b =>
    cases b with
    | false => exact readScalar_plain (by decide) (List.all_eq_true.mp rfl) hrest
    | true => exact readScalar_plain (by decide) (List.all_eq_true.mp rfl) hrest
  | float | moment => cases h

theorem Scalar.write_cons {s : Scalar} (h : s.isWritten = true) :
    ∃ c more, s.write = c :: more ∧ startsScalar c = true := by
  cases s with
  | string text =>
    obtain ⟨c, more, he, hc⟩ := writeString_cons text.toList
    exact ⟨c, more, he, by rcases hc with rfl | rfl <;> rfl⟩
  | integer n =>
    obtain ⟨c, more, he⟩ := List.exists_cons_of_ne_nil (literal_ne_nil n)
    refine ⟨c, more, he, ?_⟩
    have hplain : isPlain c = true := isPlain_of_mem_literal (he ▸ List.mem_cons_self)
    simp [startsScalar, hplain]
  | boolean b =>
    cases b with
    | false => exact ⟨'f', _, rfl, rfl⟩
    | true => exact ⟨'t', _, rfl, rfl⟩
  | float | moment => cases h

theorem startsScalar_ne {c d : Char} (h : startsScalar c = true) (hd : startsScalar d = false) :
    c ≠ d := by
  rintro rfl
  exact Bool.false_ne_true (hd.symm.trans h)

theorem startsScalar_not_blank {c : Char} (h : startsScalar c = true) : isBlank c = false := by
  simp [isBlank, startsScalar_ne h (d := ' ') rfl, startsScalar_ne h (d := '\t') rfl]

/-- Nothing is skipped in front of a scalar. -/
theorem skipFill_scalar {c : Char} (h : startsScalar c = true) (more : List Char) :
    skipFill false (c :: more) = some (c :: more) := by
  simp [skipFill, startsScalar_not_blank h, startsScalar_ne h (d := '\n') rfl,
    startsScalar_ne h (d := '\r') rfl, startsScalar_ne h (d := '#') rfl]

theorem readValue_scalar {s : Scalar} (h : s.isWritten = true) {rest : List Char}
    (hrest : Delimited rest) {fuel : Nat} (hfuel : 0 < fuel) (room : Nat) :
    readValue fuel room (s.write ++ rest) = some (.scalar s, rest) := by
  obtain ⟨fuel, rfl⟩ := Nat.exists_eq_add_one.mpr (Nat.zero_lt_of_lt hfuel)
  have hread := readScalar_write h hrest
  obtain ⟨c, more, he, hc⟩ := Scalar.write_cons h
  have hbracket : c ≠ '[' := startsScalar_ne hc rfl
  have hbrace : c ≠ '\x7b' := startsScalar_ne hc rfl
  rw [he, List.cons_append] at hread ⊢
  rw [readValue, hread]
  · rfl
  all_goals simp_all

theorem readItems_blank (fuel room : Nat) (cs : List Char) :
    readItems fuel room (' ' :: cs) = readItems fuel room cs := by
  cases fuel with
  | zero => simp [readItems]
  | succ fuel => simp [readItems, skipFill, isBlank]

section Items

variable {s : Scalar} (h : s.isWritten = true) {fuel : Nat} (hfuel : 0 < fuel) (room : Nat)
include h hfuel

/-- The last item of a list. -/
theorem readItems_last (rest : List Char) :
    readItems (fuel + 1) room (s.write ++ ']' :: rest) = some ([.scalar s], rest) := by
  have hread := readValue_scalar h ⟨']', by simp, rest, rfl⟩ hfuel room
  obtain ⟨c, more, he, hc⟩ := Scalar.write_cons h
  have hclose : c ≠ ']' := startsScalar_ne hc rfl
  rw [he, List.cons_append] at hread ⊢
  have hafter : skipFill false (']' :: rest) = some (']' :: rest) := by simp [skipFill, isBlank]
  rw [readItems, skipFill_scalar hc]
  simp [hclose, hread, hafter]

/-- An item that others follow. -/
theorem readItems_next (rest : List Char) :
    readItems (fuel + 1) room (s.write ++ ',' :: rest) =
      (readItems fuel room rest).map fun (items, rest) => (.scalar s :: items, rest) := by
  have hread := readValue_scalar h ⟨',', by simp, rest, rfl⟩ hfuel room
  obtain ⟨c, more, he, hc⟩ := Scalar.write_cons h
  have hclose : c ≠ ']' := startsScalar_ne hc rfl
  rw [he, List.cons_append] at hread ⊢
  have hafter : skipFill false (',' :: rest) = some (',' :: rest) := by simp [skipFill, isBlank]
  rw [readItems, skipFill_scalar hc]
  simp [hclose, hread, hafter]
  cases readItems fuel room rest <;> rfl

end Items

/-- The items of a list, after which it ends or goes on. -/
theorem readItems_writeItems {ss : List Scalar} (h : ∀ s ∈ ss, s.isWritten = true) {fuel : Nat}
    (hfuel : ss.length < fuel) (room : Nat) (rest : List Char) :
    readItems fuel room (writeItems ss ++ ']' :: rest) = some (ss.map .scalar, rest) := by
  fun_induction writeItems ss generalizing fuel with
  | case1 =>
    obtain ⟨fuel, rfl⟩ := Nat.exists_eq_add_one.mpr (Nat.zero_lt_of_lt hfuel)
    simp [readItems, skipFill, isBlank]
  | case2 s =>
    rw [List.length_singleton] at hfuel
    obtain ⟨fuel, rfl⟩ := Nat.exists_eq_add_one.mpr (Nat.zero_lt_of_lt hfuel)
    exact readItems_last (h s List.mem_cons_self) (by omega) room rest
  | case3 s ss hss ih =>
    rw [List.length_cons] at hfuel
    obtain ⟨fuel, rfl⟩ := Nat.exists_eq_add_one.mpr (Nat.zero_lt_of_lt hfuel)
    have hrest := ih (fun t ht => h t (List.mem_cons_of_mem s ht)) (by omega : ss.length < fuel)
    rw [List.append_assoc, List.cons_append, readItems_next (h s List.mem_cons_self) (by omega),
      List.cons_append, readItems_blank, hrest]
    rfl

/-- A text that stands for a value: it does not begin with a blank, and is read where a value is
expected, however little fuel its length allows. -/
structure StandsFor (text : List Char) (v : Value) : Prop where
  start : ∃ c more, text = c :: more ∧ isBlank c = false
  read : ∀ {fuel rest}, text.length < fuel → Delimited rest → ∀ room,
    readValue fuel (room + 1) (text ++ rest) = some (v, rest)

theorem standsFor_scalar {s : Scalar} (h : s.isWritten = true) : StandsFor s.write (.scalar s) where
  start := by
    obtain ⟨c, more, he, hc⟩ := Scalar.write_cons h
    exact ⟨c, more, he, startsScalar_not_blank hc⟩
  read hfuel hrest room := readValue_scalar h hrest (Nat.zero_lt_of_lt hfuel) (room + 1)

theorem length_le_writeItems {ss : List Scalar} (h : ∀ s ∈ ss, s.isWritten = true) :
    ss.length ≤ (writeItems ss).length := by
  fun_induction writeItems ss with
  | case1 => exact Nat.le_refl 0
  | case2 s =>
    obtain ⟨c, more, he, _⟩ := Scalar.write_cons (h s List.mem_cons_self)
    simp [he]
  | case3 s ss hss ih =>
    have hrest := ih fun t ht => h t (List.mem_cons_of_mem s ht)
    simp only [List.length_cons, List.length_append]
    omega

/-- A list of scalars is written as the array of them. -/
theorem standsFor_list {ss : List Scalar} (h : ∀ s ∈ ss, s.isWritten = true) :
    StandsFor (writeList ss) (.array (ss.map .scalar)) where
  start := ⟨'[', _, rfl, rfl⟩
  read := by
    intro fuel rest hfuel _ room
    have hlength := length_le_writeItems h
    simp only [writeList, List.length_append, List.length_cons, List.length_nil] at hfuel
    obtain ⟨fuel, rfl⟩ := Nat.exists_eq_add_one.mpr (Nat.zero_lt_of_lt hfuel)
    have hitems := readItems_writeItems h (by omega : ss.length < fuel) room rest
    change readValue (fuel + 1) (room + 1) ('[' :: (writeItems ss ++ [']'] ++ rest)) = _
    rw [List.append_assoc, List.singleton_append, readValue, hitems]
    rfl

end Automata.Toml
