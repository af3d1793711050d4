import Automata.Toml.Number

namespace Automata.Toml

def daysInMonth (year month : Nat) : Nat :=
  if month = 2 then
    if year % 4 = 0 ∧ (year % 100 ≠ 0 ∨ year % 400 = 0) then 29 else 28
  else if month ∈ [4, 6, 9, 11] then 30
  else 31

def plainDigits? (cs : List Char) : Option Nat :=
  cs.foldlM (fun n c => (digit? 10 c).map (10 * n + ·)) 0

def isDate : List Char → Bool
  | [y₁, y₂, y₃, y₄, '-', m₁, m₂, '-', d₁, d₂] =>
    match plainDigits? [y₁, y₂, y₃, y₄], plainDigits? [m₁, m₂], plainDigits? [d₁, d₂] with
    | some year, some month, some day =>
      1 ≤ month && month ≤ 12 && 1 ≤ day && day ≤ daysInMonth year month
    | _, _, _ => false
  | _ => false

def isUpTo (max : Nat) (cs : List Char) : Bool :=
  (plainDigits? cs).any (· ≤ max)

/-- A time of day without an offset. The seconds may be left out; a minute may have a leap second. -/
def isTime : List Char → Bool
  | h₁ :: h₂ :: ':' :: m₁ :: m₂ :: seconds =>
    isUpTo 23 [h₁, h₂] && isUpTo 59 [m₁, m₂] &&
      match seconds with
      | [] => true
      | [':', s₁, s₂] => isUpTo 60 [s₁, s₂]
      | ':' :: s₁ :: s₂ :: '.' :: digits =>
        isUpTo 60 [s₁, s₂] && !digits.isEmpty && (plainDigits? digits).isSome
      | _ => false
  | _ => false

def isOffset : List Char → Bool
  | [] => true
  | [c] => c = 'Z' || c = 'z'
  | [sign, h₁, h₂, ':', m₁, m₂] =>
    (sign = '+' || sign = '-') && isUpTo 23 [h₁, h₂] && isUpTo 59 [m₁, m₂]
  | _ => false

def startsOffset (c : Char) : Bool :=
  c = 'Z' || c = 'z' || c = '+' || c = '-'

def isDateTimeMark (c : Char) : Bool :=
  c = 'T' || c = 't' || c = ' '

def isMoment (cs : List Char) : Bool :=
  isDate cs || isTime cs ||
    isDate (cs.take 10) &&
      match cs.drop 10 with
      | mark :: clock =>
        isDateTimeMark mark && isTime (clock.takeWhile fun c => !startsOffset c) &&
          isOffset (clock.dropWhile fun c => !startsOffset c)
      | [] => false

end Automata.Toml
