import Automata.Text.Literal
import Automata.Toml.Read
import Mathlib.Tactic.IntervalCases

namespace Automata.Toml

theorem digit?_of_isDigit {c : Char} (h : c.isDigit) : digit? 10 c = some (c.toNat - '0'.toNat) := by
  have hrange : '0' ≤ c ∧ c ≤ '9' := by simpa [Char.isDigit, Char.le_def] using h
  have hvalue : c.toNat - '0'.toNat < 10 := by
    have hle : c.toNat ≤ '9'.toNat := hrange.2
    have hnine : '9'.toNat = '0'.toNat + 9 := rfl
    omega
  simp only [digit?, hrange, and_self, if_true, hvalue]

theorem moreDigits?_eq {cs : List Char} (h : ∀ c ∈ cs, c.isDigit) (n : Nat) :
    moreDigits? 10 n cs = some (Nat.ofDigitChars 10 cs n) := by
  induction cs generalizing n with
  | nil => simp [moreDigits?]
  | cons c cs ih =>
    have hc := h c List.mem_cons_self
    have hcs : ∀ d ∈ cs, d.isDigit := fun d hd => h d (List.mem_cons_of_mem c hd)
    have hunderscore : c ≠ '_' := by
      rintro rfl
      exact absurd hc (by decide)
    rw [moreDigits?, digit?_of_isDigit hc, Option.bind_some, ih hcs, Nat.ofDigitChars_cons]
    intro _ _ he
    exact absurd he hunderscore

theorem isDigit_of_mem_toDigits {n : Nat} {c : Char} (h : c ∈ Nat.toDigits 10 n) : c.isDigit :=
  Nat.isDigit_of_mem_toDigits (by decide) (by decide) h

/-- Only zero is written with a zero in front. -/
theorem head?_toDigits {n : Nat} (h : 0 < n) : (Nat.toDigits 10 n).head? ≠ some '0' := by
  induction n using Nat.strongRecOn with
  | ind n ih =>
    by_cases hlt : n < 10
    · rw [Nat.toDigits_of_lt_base hlt]
      interval_cases n <;> decide
    · have hle : 10 ≤ n := by omega
      have hhead := ih (n / 10) (by omega) (by omega)
      rw [Nat.toDigits_of_base_le (by decide) hle, List.head?_append]
      cases hd : Nat.toDigits 10 (n / 10) with
      | nil => exact absurd hd Nat.toDigits_ne_nil
      | cons c cs => rwa [hd] at hhead

theorem digits?_toDigits (n : Nat) : digits? 10 (Nat.toDigits 10 n) = some n := by
  cases hd : Nat.toDigits 10 n with
  | nil => exact absurd hd Nat.toDigits_ne_nil
  | cons c cs =>
    have hdigit : ∀ d ∈ c :: cs, d.isDigit := fun d hm => isDigit_of_mem_toDigits (hd ▸ hm)
    have hvalue : Nat.ofDigitChars 10 (c :: cs) 0 = n := by rw [← hd, Nat.ofDigitChars_ten_toDigits]
    rw [Nat.ofDigitChars_cons, Nat.mul_zero, Nat.zero_add] at hvalue
    rw [digits?, digit?_of_isDigit (hdigit c List.mem_cons_self), Option.bind_some,
      moreDigits?_eq fun d hm => hdigit d (List.mem_cons_of_mem c hm), hvalue]

theorem decimal?_toDigits (n : Nat) : decimal? (Nat.toDigits 10 n) = some n := by
  rw [decimal?, digits?_toDigits]
  apply if_neg
  rcases Nat.eq_zero_or_pos n with rfl | hn
  · simp
  · simp [head?_toDigits hn]

/-- The text of a natural number begins with no sign and no mark of another base. -/
theorem integer?_toDigits (n : Nat) : integer? (Nat.toDigits 10 n) = some (Int.ofNat n) := by
  have hdigit : ∀ c ∈ Nat.toDigits 10 n, c.isDigit := fun c => isDigit_of_mem_toDigits
  have hvalue := decimal?_toDigits n
  generalize Nat.toDigits 10 n = cs at hdigit hvalue
  unfold integer?
  split
  · exact absurd (hdigit 'x' (by simp)) (by decide)
  · exact absurd (hdigit 'o' (by simp)) (by decide)
  · exact absurd (hdigit 'b' (by simp)) (by decide)
  · exact absurd (hdigit '+' (by simp)) (by decide)
  · exact absurd (hdigit '-' (by simp)) (by decide)
  · rw [hvalue, Option.map_some]

theorem literal_eq_toString (n : Int) : literal n = toString n := by
  cases n <;> rfl

theorem toList_literal_negSucc (n : Nat) :
    (literal (Int.negSucc n)).toList = '-' :: Nat.toDigits 10 (n + 1) := by
  change ("-" ++ String.ofList (Nat.toDigits 10 (n + 1))).toList = _
  simp

theorem toList_literal_ofNat (n : Nat) : (literal (Int.ofNat n)).toList = Nat.toDigits 10 n :=
  String.toList_ofList

theorem integer?_literal (n : Int) : integer? (literal n).toList = some n := by
  cases n with
  | ofNat n => rw [toList_literal_ofNat, integer?_toDigits]
  | negSucc n =>
    rw [toList_literal_negSucc, integer?, decimal?_toDigits, Option.map_some]
    rfl

end Automata.Toml
