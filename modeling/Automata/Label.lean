import Automata.Text.Outline

namespace Automata

inductive Label (α : Type) where
  | symbol (letter : α)
  /-- An edge that is taken without reading. -/
  | epsilon
deriving DecidableEq

namespace Label

variable {α : Type}

def isEpsilon : Label α → Bool
  | symbol _ => false
  | epsilon => true

def letter? : Label α → Option α
  | symbol letter => some letter
  | epsilon => none

def reads [DecidableEq α] (label : Label α) (letter : α) : Bool :=
  match label with
  | symbol own => own = letter
  | epsilon => false

instance [Ord α] : Ord (Label α) where
  compare
    | symbol a, symbol b => compare a b
    | symbol _, epsilon => .lt
    | epsilon, symbol _ => .gt
    | epsilon, epsilon => .eq

def outline [Literal α] : Label α → Outline
  | symbol letter => .wrapped "Symbol" (.of letter)
  | epsilon => .atom "Epsilon"

@[simp] theorem isEpsilon_iff {label : Label α} : label.isEpsilon ↔ label = epsilon := by
  cases label <;> simp [isEpsilon]

@[simp] theorem reads_iff [DecidableEq α] {label : Label α} {letter : α} :
    label.reads letter ↔ label = symbol letter := by
  cases label <;> simp [reads]

@[simp] theorem letter?_eq_some_iff {label : Label α} {letter : α} :
    label.letter? = some letter ↔ label = symbol letter := by
  cases label <;> simp [letter?]

end Label

end Automata
