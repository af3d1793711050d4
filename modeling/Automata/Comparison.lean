import Automata.Automaton
import Automata.Word

namespace Automata

variable {α : Type} [DecidableEq α]

def distinguish? (a b : Automaton α) (max : Nat) : Option (List α) :=
  Word.find? a.alphabet max fun w => a.accepts w != b.accepts w

inductive Difference (α : Type) where
  | alphabets (first second : List α)
  /-- Only the first accepts the word. -/
  | first (word : List α)
  /-- Only the second accepts the word. -/
  | second (word : List α)
deriving DecidableEq

variable [Ord α]

def difference? (a b : Automaton α) (max : Nat) : Option (Difference α) :=
  if sorted a.alphabet = sorted b.alphabet then
    (distinguish? a b max).map fun w => if a.accepts w then .first w else .second w
  else some (.alphabets (sorted a.alphabet) (sorted b.alphabet))

/-- Whether two automata have the same letters and accept the same words of at most a length. -/
def sameLanguage (a b : Automaton α) (max : Nat) : Bool :=
  sorted a.alphabet = sorted b.alphabet && (distinguish? a b max).isNone

omit [DecidableEq α] [Ord α] in
def Difference.message [Literal α] : Difference α → String
  | alphabets a b =>
    "assertion `left == right` failed: Alphabets are not the same\n  left: " ++ listed a ++
      "\n right: " ++ listed b
  | first w => only w "a" "b"
  | second w => only w "b" "a"
where
  listed (letters : List α) : String :=
    (Outline.list (letters.map .of)).line
  only (w : List α) (accepting rejecting : String) : String :=
    listed w ++ " is accepted by automaton `" ++ accepting ++ "` but not by automaton `" ++ rejecting ++
      "`. Thus their languages are not equal."

end Automata
