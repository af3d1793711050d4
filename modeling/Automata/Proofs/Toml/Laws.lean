import Automata.Toml.Codec

namespace Automata.Toml

def inDecimal? {α : Type} [coded : Coded α] (x : α) : Option String :=
  match coded, x with
  | .uint32, n => some (toString n.toNat)
  | .uint64, n => some (toString n.toNat)
  | .int64, n => some (toString n.toInt)
  | _, _ => none

namespace Codec

/-- What is written in one shape is read in another. -/
def Carries (c : Codec) {σ τ : Type} (s : Shape σ) (x : σ) (t : Shape τ) (y : τ) : Prop :=
  ∃ text, c.write s x = some text ∧ c.read t text = some y

def Keeps (c : Codec) {σ : Type} (s : Shape σ) (x : σ) : Prop :=
  c.Carries s x s x

/-- What is relied on for numbers and for several fields. -/
structure FieldLaws (c : Codec) : Prop where
  -- Numbers are written in decimal and accepted, natural ones up to 2 ^ 64 - 1.
  number_written : ∀ {name : String}, isBareKey name = true →
    ∀ {α : Type} [Coded α] {x : α} {digits : String}, inDecimal? x = some digits →
      c.write (.record (.single name (.one α))) (x, ()) = some (name ++ " = " ++ digits ++ "\n")
  number_accepted : ∀ {name : String}, isBareKey name = true →
    ∀ {α : Type} [Coded α] {x : α} {digits : String}, inDecimal? x = some digits →
      c.read (.record (.single name (.one α))) (name ++ " = " ++ digits ++ "\n") = some (x, ())
  -- Fields with different names do not disturb each other.
  field : ∀ {name : String} {α α' β β' : Type} {cell : Cell α} {cell' : Cell α'}
    {more : Fields β} {more' : Fields β'} {x : α} {x' : α'} {y : β} {y' : β'},
      (Fields.cons name cell more).Proper → (Fields.cons name cell' more').Proper →
      c.Carries (.record (.single name cell)) (x, ()) (.record (.single name cell')) (x', ()) →
      c.Carries (.record more) y (.record more') y' →
        c.Carries (.record (.cons name cell more)) (x, y) (.record (.cons name cell' more')) (x', y')

/-- What is relied on for fields that may be left out. -/
structure OptionalLaws (c : Codec) : Prop extends c.FieldLaws where
  -- Something in a field is written and read as what it is.
  some_written : ∀ (name : String) {α : Type} [Coded α] (x : α),
    c.write (.record (.single name (.option α))) (some x, ()) =
      c.write (.record (.single name (.one α))) (x, ())
  some_read : ∀ {name : String} {α : Type} [Coded α] {x : α} {text : String},
    c.read (.record (.single name (.one α))) text = some (x, ()) →
      c.read (.record (.single name (.option α))) text = some (some x, ())
  -- Nothing in a field leaves the field out, and a field that is left out reads as nothing.
  none_written : ∀ (name : String) (α : Type) [Coded α] {β : Type} (more : Fields β) (y : β),
    c.write (.record (.cons name (.option α) more)) (none, y) = c.write (.record more) y
  none_read : ∀ {name : String} {α : Type} [Coded α] {σ τ : Type} {written : Fields σ}
    {more : Fields τ} {x : σ} {y : τ}, written.Proper → name ∉ written.names →
      c.Carries (.record written) x (.record more) y →
        c.Carries (.record written) x (.record (.cons name (.option α) more)) (none, y)

/-- What is relied on for lists of values and for lists of structures. -/
structure ListLaws (c : Codec) : Prop extends c.FieldLaws where
  -- A string is quoted so that the same string is read, and a character is written as a string.
  string : ∀ {name : String}, isBareKey name = true →
    ∀ s : String, c.Keeps (.record (.single name (.one String))) (s, ())
  char : ∀ {name : String}, isBareKey name = true →
    ∀ a : Char, c.Keeps (.record (.single name (.one Char))) (a, ())
  bool : ∀ {name : String}, isBareKey name = true →
    ∀ b : Bool, c.Keeps (.record (.single name (.one Bool))) (b, ())
  -- A list keeps the items that are kept alone.
  list : ∀ {name : String}, isBareKey name = true → ∀ {α : Type} [Coded α] {xs : List α},
    (∀ x ∈ xs, c.Keeps (.record (.single name (.one α))) (x, ())) →
      c.Keeps (.record (.single name (.list α))) (xs, ())
  -- Nothing in a list is refused, and something in it is written and read as what it is.
  gap_refused : ∀ (name : String) {α : Type} [Coded α] {xs : List (Option α)}, none ∈ xs →
    c.write (.record (.single name (.gaps α))) (xs, ()) = none
  gapless_written : ∀ (name : String) {α : Type} [Coded α] (xs : List α),
    c.write (.record (.single name (.gaps α))) (xs.map some, ()) =
      c.write (.record (.single name (.list α))) (xs, ())
  gapless_read : ∀ {name : String} {α : Type} [Coded α] {xs : List α} {text : String},
    c.read (.record (.single name (.list α))) text = some (xs, ()) →
      c.read (.record (.single name (.gaps α))) text = some (xs.map some, ())
  -- What cannot be written of one field cannot be written of all.
  field_refused : ∀ {name : String} {α β : Type} {cell : Cell α} {more : Fields β} {x : α} {y : β},
    c.write (.record (.single name cell)) (x, ()) = none ∨ c.write (.record more) y = none →
      c.write (.record (.cons name cell more)) (x, y) = none
  -- A list of structures keeps those that are kept alone, and is refused with one that is refused.
  rows : ∀ {name : String} {σ τ : Type} {fields : Fields σ} {row : Fields τ} {x : σ}
    {rows : List τ}, isBareKey name = true → name ∉ fields.names → fields.Proper → row.Proper →
      c.Keeps (.record fields) x → (∀ r ∈ rows, c.Keeps (.record row) r) →
        c.Keeps (.listing fields name row) (x, rows)
  row_refused : ∀ {name : String} {σ τ : Type} {fields : Fields σ} {row : Fields τ} {x : σ}
    {rows : List τ} {r : τ}, r ∈ rows → c.write (.record row) r = none →
      c.write (.listing fields name row) (x, rows) = none

variable {c : Codec} {name : String}

theorem FieldLaws.number (laws : c.FieldLaws) (bare : isBareKey name = true) {α : Type} [Coded α]
    {x : α} {digits : String} (h : inDecimal? x = some digits) :
    c.Keeps (.record (.single name (.one α))) (x, ()) :=
  ⟨_, laws.number_written bare h, laws.number_accepted bare h⟩

namespace OptionalLaws

variable (laws : c.OptionalLaws) (bare : isBareKey name = true)
include laws bare

/-- A number that is there is read as one that may be missing. -/
theorem number_as_option {α : Type} [Coded α] {x : α} {digits : String}
    (h : inDecimal? x = some digits) :
    c.Carries (.record (.single name (.one α))) (x, ())
      (.record (.single name (.option α))) (some x, ()) := by
  obtain ⟨text, hwrite, hread⟩ := laws.number bare h
  exact ⟨text, hwrite, laws.some_read hread⟩

theorem number_option {α : Type} [Coded α] {x : α} {digits : String}
    (h : inDecimal? x = some digits) :
    c.Keeps (.record (.single name (.option α))) (some x, ()) := by
  obtain ⟨text, hwrite, hread⟩ := laws.number_as_option bare h
  exact ⟨text, (laws.some_written name x).trans hwrite, hread⟩

end OptionalLaws

namespace ListLaws

variable (laws : c.ListLaws) (bare : isBareKey name = true)
include laws bare

/-- A field keeps a value of any type that has no parts. -/
theorem one {α : Type} [coded : Coded α] (x : α) :
    c.Keeps (.record (.single name (.one α))) (x, ()) := by
  cases coded with
  | string => exact laws.string bare x
  | char => exact laws.char bare x
  | bool => exact laws.bool bare x
  | uint32 => exact laws.number bare rfl
  | uint64 => exact laws.number bare rfl
  | int64 => exact laws.number bare rfl

theorem whole_list {α : Type} [Coded α] (xs : List α) :
    c.Keeps (.record (.single name (.list α))) (xs, ()) :=
  laws.list bare fun x _ => laws.one bare x

theorem gapless {α : Type} [Coded α] (xs : List α) :
    c.Keeps (.record (.single name (.gaps α))) (xs.map some, ()) := by
  obtain ⟨text, hwrite, hread⟩ := laws.whole_list bare xs
  exact ⟨text, (laws.gapless_written name xs).trans hwrite, laws.gapless_read hread⟩

end ListLaws

end Codec

end Automata.Toml
