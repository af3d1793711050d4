import Automata.Toml.Scan

namespace Automata.Toml

/-- The number that digits after `n` make it; an underscore must stand between two digits. -/
def moreDigits? (base n : Nat) : List Char → Option Nat
  | [] => some n
  | '_' :: c :: cs => (digit? base c).bind fun d => moreDigits? base (base * n + d) cs
  | c :: cs => (digit? base c).bind fun d => moreDigits? base (base * n + d) cs

def digits? (base : Nat) : List Char → Option Nat
  | [] => none
  | c :: cs => (digit? base c).bind fun d => moreDigits? base d cs

/-- A decimal number, which begins with zero only if it is zero. -/
def decimal? (cs : List Char) : Option Nat :=
  if cs.head? = some '0' && cs ≠ ['0'] then none else digits? 10 cs

def integer? : List Char → Option Int
  | '0' :: 'x' :: cs => (digits? 16 cs).map Int.ofNat
  | '0' :: 'o' :: cs => (digits? 8 cs).map Int.ofNat
  | '0' :: 'b' :: cs => (digits? 2 cs).map Int.ofNat
  | '+' :: cs => (decimal? cs).map Int.ofNat
  | '-' :: cs => (decimal? cs).map fun n => -Int.ofNat n
  | cs => (decimal? cs).map Int.ofNat

/-- Integers are kept as long as 128 bits hold them, with a sign or without. -/
def isStorable (n : Int) : Bool :=
  -Int.pow 2 127 ≤ n && n < Int.pow 2 128

structure Decimal where
  digits : Nat
  exponent : Int

/-- Whether the nearest double is infinite. Of numbers with one power of ten too many or too few
this is known; the others are compared with the middle between the greatest finite double and
the power of two after it. -/
def Decimal.overflows (d : Decimal) : Bool :=
  let scale := d.exponent + (Nat.toDigits 10 d.digits).length
  if d.digits = 0 || scale < 309 then false
  else if 309 < scale then true
  else
    let middle := Nat.pow 2 1024 - Nat.pow 2 970
    middle * Nat.pow 10 (-d.exponent).toNat ≤ d.digits * Nat.pow 10 d.exponent.toNat

def startsExponent (c : Char) : Bool :=
  c = 'e' || c = 'E'

def exponent? : List Char → Option Int
  | [] => some 0
  | c :: '-' :: cs => if startsExponent c then (digits? 10 cs).map fun n => -Int.ofNat n else none
  | c :: '+' :: cs => if startsExponent c then (digits? 10 cs).map Int.ofNat else none
  | c :: cs => if startsExponent c then (digits? 10 cs).map Int.ofNat else none

def floatOfParts? (whole : Nat) : List Char → Option Decimal
  | '.' :: cs => do
    let digits := cs.takeWhile fun c => !startsExponent c
    let fraction ← digits? 10 digits
    let exponent ← exponent? (cs.dropWhile fun c => !startsExponent c)
    let places := digits.countP fun c => c ≠ '_'
    return ⟨whole * Nat.pow 10 places + fraction, exponent - places⟩
  | cs => (exponent? cs).map fun exponent => ⟨whole, exponent⟩

def dropSign : List Char → List Char
  | '+' :: cs => cs
  | '-' :: cs => cs
  | cs => cs

def float? (cs : List Char) : Option Decimal := do
  let body := dropSign cs
  let inWhole (c : Char) := c ≠ '.' && !startsExponent c
  floatOfParts? (← decimal? (body.takeWhile inWhole)) (body.dropWhile inWhole)

def isSpecialFloat (cs : List Char) : Bool :=
  dropSign cs = ['i', 'n', 'f'] || dropSign cs = ['n', 'a', 'n']

end Automata.Toml
