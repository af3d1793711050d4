import Automata.Toml.Codec
import Automata.Toml.Value

namespace Automata.Toml

def readKey : Reader String
  | '"' :: cs => (basicBody cs).map fun (key, rest) => (String.ofList key, rest)
  | '\x27' :: cs => (literalBody cs).map fun (key, rest) => (String.ofList key, rest)
  | cs =>
    if (cs.takeWhile isBare).isEmpty then none
    else some (String.ofList (cs.takeWhile isBare), cs.dropWhile isBare)

/-- How many keys a path may have, and how many brackets may be open. -/
def nestingLimit : Nat :=
  80

/-- Keys with dots between them, and the blanks around each. The number says how many there may
be. -/
def readPath : Nat → Reader (List String)
  | 0, _ => none
  | limit + 1, cs => do
    let (key, rest) ← readKey (skipBlanks cs)
    match skipBlanks rest with
    | '.' :: rest =>
      let (path, rest) ← readPath limit rest
      return (key :: path, rest)
    | rest => return ([key], rest)

/-- The characters of values that are not strings and have no parts. -/
def isPlain (c : Char) : Bool :=
  c.isAlphanum || c = '+' || c = '-' || c = '_' || c = '.' || c = ':'

/-- The plain characters in front of a text. A blank between a date and a time belongs to them. -/
def plainText (cs : List Char) : List Char × List Char :=
  let first := cs.takeWhile isPlain
  let rest := cs.dropWhile isPlain
  match rest with
  | ' ' :: c :: more =>
    if isDate first && c.isDigit then
      (first ++ ' ' :: (c :: more).takeWhile isPlain, (c :: more).dropWhile isPlain)
    else (first, rest)
  | _ => (first, rest)

def plainScalar? (cs : List Char) : Option Scalar :=
  if cs = ['t', 'r', 'u', 'e'] then some (.boolean true)
  else if cs = ['f', 'a', 'l', 's', 'e'] then some (.boolean false)
  else match integer? cs with
    | some n => some (.integer n)
    | none =>
      if isSpecialFloat cs || (float? cs).isSome then some (.float (String.ofList cs))
      else if isMoment cs then some (.moment (String.ofList cs))
      else none

def readScalar (cs : List Char) : Option (Scalar × List Char) :=
  if cs.head? = some '"' || cs.head? = some apostrophe then
    (readString cs).map fun (s, rest) => (.string (String.ofList s), rest)
  else
    let (first, rest) := plainText cs
    (plainScalar? first).map fun s => (s, rest)

mutual

/-- A value, with room for so many open brackets. -/
def readValue : Nat → Nat → Reader Value
  | 0, _, _ => none
  | _ + 1, 0, '[' :: _ => none
  | fuel + 1, room + 1, '[' :: cs => do
    let (items, rest) ← readItems fuel room cs
    return (.array items, rest)
  | _ + 1, 0, '\x7b' :: _ => none
  | fuel + 1, room + 1, '\x7b' :: cs => do
    let (entries, rest) ← readEntries fuel room [] cs
    return (.table .inline entries, rest)
  | _ + 1, _, cs => do
    let (s, rest) ← readScalar cs
    return (.scalar s, rest)

def readItems : Nat → Nat → Reader (List Value)
  | 0, _, _ => none
  | fuel + 1, room, cs => do
    match ← skipFill false cs with
    | ']' :: rest => return ([], rest)
    | cs =>
      let (item, rest) ← readValue fuel room cs
      match ← skipFill false rest with
      | ',' :: rest =>
        let (items, rest) ← readItems fuel room rest
        return (item :: items, rest)
      | ']' :: rest => return ([item], rest)
      | _ => none

/-- The entries of a table between braces after those that are known, where one more or the end
may come. Only a path with dots must stand on one line. -/
def readEntries : Nat → Nat → Entries → Reader Entries
  | 0, _, _, _ => none
  | fuel + 1, room, known, cs => do
    match ← skipFill false cs with
    | '\x7d' :: rest => return (known, rest)
    | cs =>
      let (path, rest) ← readPath nestingLimit cs
      let rest ← expect '=' (← skipFill false rest)
      let (v, rest) ← readValue fuel room (← skipFill false rest)
      let known ← known.assign v path
      match ← skipFill false rest with
      | ',' :: rest => readEntries fuel room known rest
      | '\x7d' :: rest => return (known, rest)
      | _ => none

end

end Automata.Toml
