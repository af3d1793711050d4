import Automata.Text.Literal
import Automata.Toml.Codec
import Automata.Toml.StringForm
import Automata.Toml.Value

namespace Automata.Toml

def Scalar.write : Scalar → List Char
  | string text => writeString text.toList
  | integer n => (literal n).toList
  | boolean b => (literal b).toList
  | float text => text.toList
  | moment text => text.toList

def writeItems : List Scalar → List Char
  | [] => []
  | [s] => s.write
  | s :: ss => s.write ++ ',' :: ' ' :: writeItems ss

def writeList (ss : List Scalar) : List Char :=
  '[' :: writeItems ss ++ [']']

def writeLine (key : String) (text : List Char) : List Char :=
  key.toList ++ ' ' :: '=' :: ' ' :: text ++ ['\n']

def Value.scalar? : Value → Option Scalar
  | scalar s => some s
  | _ => none

/-- A list of values that can each be decoded. Tables with headers of their own are a list, too. -/
def Value.list? {β : Type} (decode : Value → Option β) : Value → Option (List β)
  | array items => items.mapM decode
  | tables elements => elements.mapM fun es => decode (.table .header es)
  | _ => none

/-- A character is written as a string of length one, and a number in decimal. -/
def encode {α : Type} [coded : Coded α] (x : α) : Scalar :=
  match coded, x with
  | .string, s => .string s
  | .char, c => .string (String.singleton c)
  | .bool, b => .boolean b
  | .uint32, n => .integer n.toNat
  | .uint64, n => .integer n.toNat
  | .int64, n => .integer n.toInt

def string? : Scalar → Option String
  | .string s => some s
  | _ => none

def character? (s : Scalar) : Option Char := do
  match (← string? s).toList with
  | [c] => some c
  | _ => none

def boolean? : Scalar → Option Bool
  | .boolean b => some b
  | _ => none

def integerIn? (low high : Int) : Scalar → Option Int
  | .integer n => if low ≤ n ∧ n ≤ high then some n else none
  | _ => none

def decode {α : Type} [coded : Coded α] (s : Scalar) : Option α :=
  match coded with
  | .string => string? s
  | .char => character? s
  | .bool => boolean? s
  | .uint32 => (integerIn? 0 0xffffffff s).map fun n => .ofNat n.toNat
  | .uint64 => (integerIn? 0 0xffffffffffffffff s).map fun n => .ofNat n.toNat
  | .int64 => (integerIn? (-0x8000000000000000) 0x7fffffffffffffff s).map .ofInt

def Value.decode? {α : Type} [Coded α] (v : Value) : Option α :=
  v.scalar?.bind decode

end Automata.Toml
