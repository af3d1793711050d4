import Automata.Toml.Moment
import Automata.Toml.Quoted

namespace Automata.Toml

/-- A value without parts. Floats and moments are kept as they are written. -/
inductive Scalar where
  | string (text : String)
  | integer (value : Int)
  | boolean (value : Bool)
  | float (text : String)
  | moment (text : String)
deriving DecidableEq

def Scalar.isStorable : Scalar → Bool
  | integer n => Toml.isStorable n
  | float text => !((float? text.toList).any Decimal.overflows)
  | _ => true

/-- How a table came to be, which decides what may still be added to it. -/
inductive Origin where
  /-- It has a header of its own. -/
  | header
  /-- The header of a table inside it named it on the way. -/
  | implied
  /-- A key with dots named it on the way. -/
  | dotted
  /-- It is written between braces. -/
  | inline
deriving DecidableEq

inductive Value where
  | scalar (s : Scalar)
  | array (items : List Value)
  | table (origin : Origin) (entries : List (String × Value))
  /-- An array of tables, each with a header of its own. -/
  | tables (elements : List (List (String × Value)))

abbrev Entries := List (String × Value)

namespace Entries

/-- Changes the value of a key, or adds the key at the end. The change sees whether there is a
value, and may refuse. -/
def update (key : String) (f : Option Value → Option Value) : Entries → Option Entries
  | [] => (f none).map fun v => [(key, v)]
  | (k, v) :: es =>
    if k = key then (f (some v)).map fun w => (k, w) :: es
    else (update key f es).map ((k, v) :: ·)

def insert (key : String) (v : Value) : Entries → Option Entries :=
  update key fun
    | none => some v
    | some _ => none

def changeLast (f : Entries → Option Entries) (elements : List Entries) : Option Value :=
  elements.getLast?.bind fun last =>
    (f last).map fun last => .tables (elements.dropLast ++ [last])

/-- A new key under a path of keys with dots. The path leads through tables without a header,
which count as made by dots from then on, and through the last elements of arrays of tables, but
the key is not put into such an element. -/
def assign (v : Value) : List String → Entries → Option Entries
  | [], _ => none
  | [key], es => insert key v es
  | key :: path, es => es.update key fun
    | none => (assign v path []).map (.table .dotted)
    | some (.table .dotted inner) => (assign v path inner).map (.table .dotted)
    | some (.table .implied inner) => (assign v path inner).map (.table .dotted)
    | some (.tables elements) =>
      if path.length = 1 then none else changeLast (assign v path) elements
    | some _ => none

/-- Changes the table at the path of a header. The path leads through tables, except for those
between braces, and through the last elements of arrays of tables; what is missing on it is
added. -/
def within (f : Entries → Option Entries) : List String → Entries → Option Entries
  | [], es => f es
  | key :: path, es => es.update key fun
    | none => (within f path []).map (.table .implied)
    | some (.table .inline _) => none
    | some (.table origin inner) => (within f path inner).map (.table origin)
    | some (.tables elements) => changeLast (within f path) elements
    | some _ => none

/-- The header of a table. A table has one at most, and none if dots made it. -/
def openTable (key : String) : Entries → Option Entries :=
  update key fun
    | none => some (.table .header [])
    | some (.table .implied inner) => some (.table .header inner)
    | some _ => none

def openElement (key : String) : Entries → Option Entries :=
  update key fun
    | none => some (.tables [[]])
    | some (.tables elements) => some (.tables (elements ++ [[]]))
    | some _ => none

end Entries

mutual

def Value.isStorable : Value → Bool
  | .scalar s => s.isStorable
  | .array items => itemsStorable items
  | .table _ es => entriesStorable es
  | .tables elements => elementsStorable elements

def itemsStorable : List Value → Bool
  | [] => true
  | v :: vs => v.isStorable && itemsStorable vs

def entriesStorable : List (String × Value) → Bool
  | [] => true
  | (_, v) :: es => v.isStorable && entriesStorable es

def elementsStorable : List (List (String × Value)) → Bool
  | [] => true
  | es :: elements => entriesStorable es && elementsStorable elements

end

/-- Whether the entries with other keys than the given ones can be ignored. Their values do not
matter, but must be some that can be kept. -/
def Entries.ignorable (known : List String) (es : Entries) : Bool :=
  entriesStorable (es.filter fun e => !known.contains e.1)

end Automata.Toml
