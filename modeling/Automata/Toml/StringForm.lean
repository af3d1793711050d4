import Automata.Toml.Quoted

namespace Automata.Toml

inductive StringForm where
  | basic
  | literal
  | longBasic
  | longLiteral

def hasThree (c : Char) : List Char → Bool
  | [] => false
  | d :: cs => [c, c, c].isPrefixOf (d :: cs) || hasThree c cs

/-- The text of a character after a backslash, or the character itself where it needs none. Quotes
and line feeds are left to the form. -/
def escaped (c : Char) : List Char :=
  if c = '\\' then ['\\', '\\']
  else if c = '\t' then ['\\', 't']
  else if c = '\r' then ['\\', 'r']
  else if c = '\x08' then ['\\', 'b']
  else if c = '\x0c' then ['\\', 'f']
  else if isText c then [c]
  else '\\' :: 'u' :: [c.toNat / 0x1000, c.toNat / 0x100, c.toNat / 0x10, c.toNat].map fun d =>
    (Nat.digitChar (d % 0x10)).toUpper

def basicText : List Char → List Char
  | [] => []
  | c :: cs =>
    if c = '"' then '\\' :: '"' :: basicText cs
    else if c = '\n' then '\\' :: 'n' :: basicText cs
    else escaped c ++ basicText cs

/-- Between three quotes every third quote in a row is escaped. The number says how many stand
directly before the text. -/
def longBasicText (quotes : Nat) : List Char → List Char
  | [] => []
  | c :: cs =>
    if c = '"' then
      if quotes < 2 then '"' :: longBasicText (quotes + 1) cs
      else '\\' :: '"' :: longBasicText 0 cs
    else if c = '\n' then '\n' :: longBasicText 0 cs
    else escaped c ++ longBasicText 0 cs

namespace StringForm

/-- Whether the form needs no escapes for a string, except for tabs. -/
def isPlain (s : List Char) : StringForm → Bool
  | basic => s.all fun c => isText c && c ≠ '"' && c ≠ '\\'
  | literal => s.all fun c => isText c && c ≠ apostrophe
  | longBasic => (s.all fun c => (isText c || c = '\n') && c ≠ '\\') && !hasThree '"' s
  | longLiteral => (s.all fun c => isText c || c = '\n') && !hasThree apostrophe s

def choose (s : List Char) : StringForm :=
  match [basic, literal, longBasic, longLiteral].find? (isPlain s) with
  | some form => form
  | none => if '\n' ∈ s then longBasic else basic

/-- The text between three quotes that begins on the next line if there is more than one. -/
def onLines (quote : Char) (s text : List Char) : List Char :=
  let quotes := [quote, quote, quote]
  quotes ++ (if '\n' ∈ s then ['\n'] else []) ++ text ++ quotes

/-- A string in the given form, which must need no escapes if it is one that has none. -/
def write (s : List Char) : StringForm → List Char
  | basic => '"' :: basicText s ++ ['"']
  | literal => apostrophe :: s ++ [apostrophe]
  | longBasic => onLines '"' s (longBasicText 0 s)
  | longLiteral => onLines apostrophe s s

end StringForm

def writeString (s : List Char) : List Char :=
  (StringForm.choose s).write s

end Automata.Toml
