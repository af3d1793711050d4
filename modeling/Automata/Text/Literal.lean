import Automata.Text.Unprintable

namespace Automata

namespace Text

def spell (quote c : Char) : String :=
  if c = '\x00' then "\\0"
  else if c = '\t' then "\\t"
  else if c = '\n' then "\\n"
  else if c = '\r' then "\\r"
  else if c = '\\' ∨ c = quote then String.ofList ['\\', c]
  else if isUnprintable c then
    "\\u\x7b" ++ String.ofList (Nat.toDigits 16 c.toNat) ++ "\x7d"
  else String.singleton c

def quoted (quote : Char) (text : List Char) : String :=
  let mark := String.singleton quote
  mark ++ String.join (text.map (spell quote)) ++ mark

end Text

/-- Values that a report can show as a literal. -/
class Literal (α : Type) where
  literal : α → String

export Literal (literal)

instance : Literal Char where
  literal c := Text.quoted '\x27' [c]

instance : Literal String where
  literal s := Text.quoted '\x22' s.toList

instance : Literal Nat where
  literal n := String.ofList (Nat.toDigits 10 n)

instance : Literal Int where
  literal
    | .ofNat n => literal n
    | .negSucc n => "-" ++ literal (n + 1)

instance : Literal Bool where
  literal b := if b then "true" else "false"

instance : Literal UInt32 where
  literal n := literal n.toNat

instance : Literal UInt64 where
  literal n := literal n.toNat

instance : Literal Int64 where
  literal n := literal n.toInt

end Automata
