import Automata.Toml.Scan

namespace Automata.Toml

def apostrophe : Char := '\x27'

def scalar? (digits : List Char) : Option Char := do
  let code ← digits.foldlM (fun n c => (digit? 16 c).map (16 * n + ·)) 0
  if code.isValidChar then some (Char.ofNat code) else none

def escape? (c : Char) : Option Char :=
  if c = 'b' then some '\x08'
  else if c = 't' then some '\t'
  else if c = 'n' then some '\n'
  else if c = 'e' then some '\x1b'
  else if c = 'f' then some '\x0c'
  else if c = 'r' then some '\r'
  else if c = '"' then some '"'
  else if c = '\\' then some '\\'
  else none

def prepend (c : Char) : Option (List Char × List Char) → Option (List Char × List Char) :=
  Option.map fun (cs, rest) => (c :: cs, rest)

def basicBody : Reader (List Char)
  | [] => none
  | '\\' :: 'x' :: a :: b :: cs => (scalar? [a, b]).bind fun x => prepend x (basicBody cs)
  | '\\' :: 'u' :: a :: b :: c :: d :: cs =>
    (scalar? [a, b, c, d]).bind fun x => prepend x (basicBody cs)
  | '\\' :: 'U' :: a :: b :: c :: d :: e :: f :: g :: h :: cs =>
    (scalar? [a, b, c, d, e, f, g, h]).bind fun x => prepend x (basicBody cs)
  | '\\' :: c :: cs => (escape? c).bind fun x => prepend x (basicBody cs)
  | c :: cs =>
    if c = '"' then some ([], cs)
    else if isText c && c ≠ '\\' then prepend c (basicBody cs)
    else none

def literalBody : Reader (List Char)
  | [] => none
  | c :: cs =>
    if c = apostrophe then some ([], cs)
    else if isText c then prepend c (literalBody cs)
    else none

/-- Where the reader of a long basic string is: in its text, after a backslash that must still
meet its line end, or in the blank space that the backslash takes away. -/
inductive Fold where
  | none
  | opened
  | ended
deriving DecidableEq

/-- The rest of a basic string that may have several lines. Of four or five quotes in a row the
last three close the string. -/
def longBasicBody : Fold → Reader (List Char)
  | _, [] => none
  | .opened, c :: cs =>
    if c = '\n' then longBasicBody .ended cs
    else if isBlank c then longBasicBody .opened cs
    else if c = '\r' && cs.head? = some '\n' then longBasicBody .opened cs
    else none
  | .ended, ' ' :: cs => longBasicBody .ended cs
  | .ended, '\t' :: cs => longBasicBody .ended cs
  | .ended, '\n' :: cs => longBasicBody .ended cs
  | .ended, '\r' :: '\n' :: cs => longBasicBody .ended cs
  | _, '\r' :: '\n' :: cs => prepend '\r' (prepend '\n' (longBasicBody .none cs))
  | _, '\n' :: cs => prepend '\n' (longBasicBody .none cs)
  | _, '"' :: '"' :: '"' :: '"' :: '"' :: cs => some (['"', '"'], cs)
  | _, '"' :: '"' :: '"' :: '"' :: cs => some (['"'], cs)
  | _, '"' :: '"' :: '"' :: cs => some ([], cs)
  | _, '\\' :: 'x' :: a :: b :: cs =>
    (scalar? [a, b]).bind fun x => prepend x (longBasicBody .none cs)
  | _, '\\' :: 'u' :: a :: b :: c :: d :: cs =>
    (scalar? [a, b, c, d]).bind fun x => prepend x (longBasicBody .none cs)
  | _, '\\' :: 'U' :: a :: b :: c :: d :: e :: f :: g :: h :: cs =>
    (scalar? [a, b, c, d, e, f, g, h]).bind fun x => prepend x (longBasicBody .none cs)
  | _, '\\' :: '\n' :: cs => longBasicBody .ended cs
  | _, '\\' :: '\r' :: '\n' :: cs => longBasicBody .ended cs
  | _, '\\' :: c :: cs =>
    if isBlank c then longBasicBody .opened cs
    else (escape? c).bind fun x => prepend x (longBasicBody .none cs)
  | _, c :: cs =>
    if isText c && c ≠ '\\' then prepend c (longBasicBody .none cs) else none

def longLiteralBody : Reader (List Char)
  | [] => none
  | '\x27' :: '\x27' :: '\x27' :: '\x27' :: '\x27' :: cs => some (['\x27', '\x27'], cs)
  | '\x27' :: '\x27' :: '\x27' :: '\x27' :: cs => some (['\x27'], cs)
  | '\x27' :: '\x27' :: '\x27' :: cs => some ([], cs)
  | '\r' :: '\n' :: cs => prepend '\r' (prepend '\n' (longLiteralBody cs))
  | c :: cs => if isText c || c = '\n' then prepend c (longLiteralBody cs) else none

/-- A text without the line end that it may begin with. -/
def dropLineEnd : List Char → List Char
  | '\n' :: cs => cs
  | '\r' :: '\n' :: cs => cs
  | cs => cs

def readString : Reader (List Char)
  | '"' :: '"' :: '"' :: cs => longBasicBody .none (dropLineEnd cs)
  | '"' :: cs => basicBody cs
  | '\x27' :: '\x27' :: '\x27' :: cs => longLiteralBody (dropLineEnd cs)
  | '\x27' :: cs => literalBody cs
  | _ => none

end Automata.Toml
