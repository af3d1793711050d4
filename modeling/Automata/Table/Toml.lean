import Automata.Table.Basic
import Automata.Toml.Text

namespace Automata

open Toml

namespace Row

abbrev Fields := String × Bool × Bool × List (Option String) × Unit

def fields : Toml.Fields Row.Fields :=
  .cons "state" (.one String) (.cons "start" (.one Bool)
    (.cons "accepting" (.one Bool) (.single "targets" (.gaps String))))

def values (r : Row) : Row.Fields :=
  (r.state, r.start, r.accepting, r.targets, ())

def ofValues : Row.Fields → Row
  | (state, start, accepting, targets, ()) => { state, start, accepting, targets }

end Row

namespace Table

variable {α : Type} [Coded α]

def shape (α : Type) [Coded α] : Shape ((List α × Unit) × List Row.Fields) :=
  .listing (.single "alphabet" (.list α)) "rows" Row.fields

def write? (c : Codec) (t : Table α) : Option String :=
  c.write (shape α) ((t.alphabet, ()), t.rows.map Row.values)

def read? (c : Codec) (text : String) : Option (Table α) :=
  (c.read (shape α) text).map fun ((alphabet, ()), rows) => ⟨alphabet, rows.map Row.ofValues⟩

def toToml? (t : Table α) : Option String :=
  t.write? codec

def ofToml? (text : String) : Option (Table α) :=
  read? codec text

end Table

end Automata
