import Automata.Toml.Read

namespace Automata.Toml

inductive Statement where
  | table (path : List String)
  | element (path : List String)
  | assignment (path : List String) (value : Value)

def readStatement (fuel : Nat) : Reader Statement
  | '[' :: '[' :: cs => do
    let (path, rest) ← readPath nestingLimit cs
    return (.element path, ← expect ']' (← expect ']' rest))
  | '[' :: cs => do
    let (path, rest) ← readPath nestingLimit cs
    return (.table path, ← expect ']' rest)
  | cs => do
    let (path, rest) ← readPath nestingLimit cs
    let (v, rest) ← readValue fuel nestingLimit (skipBlanks (← expect '=' rest))
    return (.assignment path v, rest)

def readStatements : Nat → List Char → Option (List Statement)
  | 0, _ => none
  | fuel + 1, cs => do
    match ← skipFill false cs with
    | [] => return []
    | cs =>
      let (statement, rest) ← readStatement fuel cs
      return statement :: (← readStatements fuel (← endLine false rest))

/-- Adds what a statement says. The path is that of the table which assignments go to. -/
def Statement.apply : Entries × List String → Statement → Option (Entries × List String)
  | (root, _), table path => do
    let root ← root.within (Entries.openTable (← path.getLast?)) path.dropLast
    return (root, path)
  | (root, _), element path => do
    let root ← root.within (Entries.openElement (← path.getLast?)) path.dropLast
    return (root, path)
  | (root, current), assignment path v => do
    let root ← root.within (Entries.assign v path) current
    return (root, current)

def Entries.ofStatements? (statements : List Statement) : Option Entries := do
  let (root, _) ← statements.foldlM Statement.apply ([], [])
  return root

def dropMark : List Char → List Char
  | '\ufeff' :: cs => cs
  | cs => cs

def read? (text : String) : Option Entries := do
  let cs := dropMark text.toList
  Entries.ofStatements? (← readStatements (2 * cs.length + 2) cs)

end Automata.Toml
