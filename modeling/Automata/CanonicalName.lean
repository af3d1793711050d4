import Automata.Sorted

namespace Automata

namespace CanonicalName

def isReserved (c : Char) : Bool :=
  c = '\\' || c = ',' || c = '[' || c = ']'

def shield : List Char → List Char
  | [] => []
  | c :: cs => if isReserved c then '\\' :: c :: shield cs else c :: shield cs

/-- The empty name is written with a sequence that no other name is written with. -/
def member : List Char → List Char
  | [] => ['\\', '0']
  | name => shield name

def separated : List (List Char) → List Char
  | [] => []
  | [name] => member name
  | name :: names => member name ++ ',' :: ' ' :: separated names

end CanonicalName

/-- The canonical name of the collection; names that occur twice are written twice. -/
def canonicalName (names : List String) : String :=
  String.ofList ('[' :: CanonicalName.separated ((sorted names).map String.toList) ++ [']'])

end Automata
