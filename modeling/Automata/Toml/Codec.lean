namespace Automata.Toml

/-- The types whose values have no parts. -/
class inductive Coded : Type → Type where
  | string : Coded String
  | char : Coded Char
  | bool : Coded Bool
  | uint32 : Coded UInt32
  | uint64 : Coded UInt64
  | int64 : Coded Int64

attribute [instance] Coded.string Coded.char Coded.bool Coded.uint32 Coded.uint64 Coded.int64

/-- What a field can hold: a value, a value or nothing, a list of values, or a list with gaps. -/
inductive Cell : Type → Type 1 where
  | one (α : Type) [Coded α] : Cell α
  | option (α : Type) [Coded α] : Cell (Option α)
  | list (α : Type) [Coded α] : Cell (List α)
  | gaps (α : Type) [Coded α] : Cell (List (Option α))

inductive Fields : Type → Type 1 where
  | nil : Fields Unit
  | cons {α β : Type} (name : String) (cell : Cell α) (more : Fields β) : Fields (α × β)

/-- The shape of a document: fields, and after them a list of structures where there is one. -/
inductive Shape : Type → Type 1 where
  | record {σ : Type} (fields : Fields σ) : Shape σ
  | listing {σ τ : Type} (fields : Fields σ) (name : String) (row : Fields τ) : Shape (σ × List τ)

def isBare (c : Char) : Bool :=
  c.isAlphanum || c = '_' || c = '-'

def isBareKey (key : String) : Bool :=
  !key.toList.isEmpty && key.toList.all isBare

namespace Fields

def single {α : Type} (name : String) (cell : Cell α) : Fields (α × Unit) :=
  .cons name cell .nil

def names {σ : Type} : Fields σ → List String
  | .nil => []
  | .cons name _ more => name :: more.names

/-- The names differ, and none needs quotes. -/
def Proper {σ : Type} (fields : Fields σ) : Prop :=
  fields.names.Nodup ∧ ∀ name ∈ fields.names, isBareKey name = true

instance {σ : Type} (fields : Fields σ) : Decidable fields.Proper :=
  inferInstanceAs (Decidable (_ ∧ _))

end Fields

/-- A writer and a reader of TOML texts. Either may refuse what it is given. -/
structure Codec where
  write : {σ : Type} → Shape σ → σ → Option String
  read : {σ : Type} → Shape σ → String → Option σ

end Automata.Toml
