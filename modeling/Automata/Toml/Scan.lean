namespace Automata.Toml

abbrev Reader (β : Type) := List Char → Option (β × List Char)

def isBlank (c : Char) : Bool :=
  c = ' ' || c = '\t'

/-- The characters that comments and strings may show as they are: all but the controls, of which
only the tab is one of them. -/
def isText (c : Char) : Bool :=
  c = '\t' || 0x20 ≤ c.toNat && c.toNat ≠ 0x7f

def digit? (base : Nat) (c : Char) : Option Nat :=
  let value :=
    if '0' ≤ c ∧ c ≤ '9' then c.toNat - '0'.toNat
    else if 'a' ≤ c ∧ c ≤ 'f' then c.toNat - 'a'.toNat + 10
    else if 'A' ≤ c ∧ c ≤ 'F' then c.toNat - 'A'.toNat + 10
    else base
  if value < base then some value else none

def skipBlanks (cs : List Char) : List Char :=
  cs.dropWhile isBlank

/-- Skips blanks, line ends and comments. A carriage return must belong to a line end. -/
def skipFill (inComment : Bool) : List Char → Option (List Char)
  | [] => some []
  | c :: cs =>
    if c = '\n' then skipFill false cs
    else if c = '\r' then if cs.head? = some '\n' then skipFill inComment cs else none
    else if inComment then if isText c then skipFill true cs else none
    else if isBlank c then skipFill false cs
    else if c = '#' then skipFill true cs
    else some (c :: cs)

def endLine (inComment : Bool) : List Char → Option (List Char)
  | [] => some []
  | c :: cs =>
    if c = '\n' then some cs
    else if c = '\r' then if cs.head? = some '\n' then endLine inComment cs else none
    else if inComment then if isText c then endLine true cs else none
    else if isBlank c then endLine false cs
    else if c = '#' then endLine true cs
    else none

def expect (c : Char) : List Char → Option (List Char)
  | [] => none
  | d :: cs => if d = c then some cs else none

end Automata.Toml
