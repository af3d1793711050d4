import Automata.Toml.Coded
import Automata.Toml.Document

namespace Automata.Toml

/-- What stands behind the equals sign of a line. -/
inductive Content where
  | scalar (s : Scalar)
  | list (items : List Scalar)

namespace Content

def write : Content → List Char
  | scalar s => s.write
  | list items => writeList items

def value : Content → Value
  | scalar s => .scalar s
  | list items => .array (items.map .scalar)

end Content

abbrev Contents := List (String × Content)

def Contents.write (contents : Contents) : List Char :=
  contents.flatMap fun (name, content) => writeLine name content.write

def Contents.writeSection (name : String) (contents : Contents) : List Char :=
  '\n' :: '[' :: '[' :: name.toList ++ ']' :: ']' :: '\n' :: contents.write

/-- Lines and behind them one section for each element, or an empty list if there is none. -/
def Contents.writeListing (first : Contents) (name : String) (elements : List Contents) :
    List Char :=
  first.write ++ if elements.isEmpty then writeLine name ['[', ']']
    else elements.flatMap (writeSection name)

namespace Cell

/-- What is written for a cell, if anything is. A list with gaps is refused. -/
def content? : {α : Type} → Cell α → α → Option (Option Content)
  | _, @one α _, x => some (some (.scalar (encode x)))
  | _, @option α _, x => some (x.map fun x => .scalar (encode x))
  | _, @list α _, xs => some (some (.list (xs.map encode)))
  | _, @gaps α _, xs => (xs.mapM id).map fun xs => some (.list (xs.map encode))

def decode? : {α : Type} → Cell α → Option Value → Option α
  | _, @one α _, v => v.bind Value.decode?
  | _, @option α _, v => v.mapM Value.decode?
  | _, @list α _, v => v.bind (Value.list? Value.decode?)
  | _, @gaps α _, v => (v.bind (Value.list? Value.decode?)).map (List.map some)

end Cell

namespace Fields

def contents? {σ : Type} : Fields σ → σ → Option Contents
  | .nil, _ => some []
  | .cons name cell more, (x, y) => do
    let content ← cell.content? x
    let others ← more.contents? y
    return (content.map (name, ·)).toList ++ others

def ofEntries? {σ : Type} : Fields σ → Entries → Option σ
  | .nil, _ => some ()
  | .cons name cell more, es => do return (← cell.decode? (es.lookup name), ← more.ofEntries? es)

/-- The fields from a list that has them in their order. -/
def ofItems? {σ : Type} : Fields σ → List Value → Option σ
  | .nil, _ => some ()
  | .cons .., [] => none
  | .cons _ cell more, v :: vs => do return (← cell.decode? (some v), ← more.ofItems? vs)

def ofValue? {σ : Type} (fields : Fields σ) : Value → Option σ
  | .table _ es => do
    guard (Entries.ignorable fields.names es)
    fields.ofEntries? es
  | .array items => fields.ofItems? items
  | _ => none

end Fields

namespace Shape

def write? {σ : Type} : Shape σ → σ → Option (List Char)
  | .record fields, x => (fields.contents? x).map Contents.write
  | .listing fields name row, (x, rows) => do
    let first ← fields.contents? x
    let sections ← rows.mapM row.contents?
    return first.writeListing name sections

def ofEntries? {σ : Type} : Shape σ → Entries → Option σ
  | .record fields, es => do
    guard (Entries.ignorable fields.names es)
    fields.ofEntries? es
  | .listing fields name row, es => do
    guard (Entries.ignorable (name :: fields.names) es)
    return (← fields.ofEntries? es, ← (← es.lookup name).list? row.ofValue?)

end Shape

/-- Fields without a value are left out, and a list of structures is an array of tables. -/
def codec : Codec where
  write shape x := (shape.write? x).map String.ofList
  read shape text := (read? text).bind shape.ofEntries?

end Automata.Toml
