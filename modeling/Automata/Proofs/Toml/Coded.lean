import Automata.Proofs.Toml.Value

namespace Automata.Toml

theorem integerIn?_of_mem {low high n : Int} (h : low ≤ n ∧ n ≤ high) :
    integerIn? low high (.integer n) = some n :=
  if_pos h

section Partial

variable {α β : Type} {f : α → Option β} {xs : List α}

theorem mapM_eq_some_map {g : α → β} (h : ∀ x ∈ xs, f x = some (g x)) :
    xs.mapM f = some (xs.map g) := by
  induction xs with
  | nil => rfl
  | cons x xs ih =>
    rw [List.mapM_cons, h x List.mem_cons_self, ih fun y hy => h y (List.mem_cons_of_mem x hy)]
    rfl

/-- What undoes a function undoes it throughout a list. -/
theorem mapM_map_eq_some {g : β → α} {ys : List β} (h : ∀ y ∈ ys, f (g y) = some y) :
    (ys.map g).mapM f = some ys := by
  rw [List.mapM_map]
  exact (mapM_eq_some_map h).trans (congrArg some (List.map_id ys))

theorem mapM_eq_none_iff : xs.mapM f = none ↔ ∃ x ∈ xs, f x = none := by
  induction xs with
  | nil => simp
  | cons x xs ih =>
    simp only [List.mapM_cons, List.mem_cons, exists_eq_or_imp, ← ih]
    cases f x with
    | none => simp
    | some y => cases xs.mapM f <;> simp

end Partial

variable {α : Type} [coded : Coded α]

/-- A coded value is read as what it was. -/
theorem decode_encode (x : α) : decode (encode x) = some x := by
  cases coded with
  | string => rfl
  | char => simp [encode, decode, character?, string?]
  | bool => rfl
  | uint32 =>
    have hlt : x.toNat < 2 ^ 32 := x.toNat_lt
    have hin : (0 : Int) ≤ x.toNat ∧ (x.toNat : Int) ≤ 0xffffffff := by omega
    simp only [encode, decode, integerIn?_of_mem hin, Option.map_some, Int.toNat_natCast,
      UInt32.ofNat_toNat]
  | uint64 =>
    have hlt : x.toNat < 2 ^ 64 := x.toNat_lt
    have hin : (0 : Int) ≤ x.toNat ∧ (x.toNat : Int) ≤ 0xffffffffffffffff := by omega
    simp only [encode, decode, integerIn?_of_mem hin, Option.map_some, Int.toNat_natCast,
      UInt64.ofNat_toNat]
  | int64 =>
    have hin : -0x8000000000000000 ≤ x.toInt ∧ x.toInt ≤ 0x7fffffffffffffff :=
      ⟨x.minValue_le_toInt, x.toInt_le⟩
    simp only [encode, decode, integerIn?_of_mem hin, Option.map_some, Int64.ofInt_toInt]

theorem isWritten_encode (x : α) : (encode x).isWritten = true := by
  cases coded <;> rfl

theorem isStorable_of_mem {n : Int} (h : -2 ^ 63 ≤ n ∧ n < 2 ^ 64) : isStorable n = true := by
  have hlow : -Int.pow 2 127 ≤ n := Int.le_trans (by decide) h.1
  have hhigh : n < Int.pow 2 128 := Int.lt_trans h.2 (by decide)
  rw [isStorable, decide_eq_true hlow, decide_eq_true hhigh]
  rfl

theorem isStorable_encode (x : α) : (encode x).isStorable = true := by
  cases coded with
  | uint32 =>
    have hlt : x.toNat < 2 ^ 32 := x.toNat_lt
    exact isStorable_of_mem (n := x.toNat) (by omega)
  | uint64 =>
    have hlt : x.toNat < 2 ^ 64 := x.toNat_lt
    exact isStorable_of_mem (n := x.toNat) (by omega)
  | int64 =>
    have hin : -2 ^ 63 ≤ x.toInt ∧ x.toInt ≤ 2 ^ 63 - 1 := ⟨x.minValue_le_toInt, x.toInt_le⟩
    exact isStorable_of_mem (n := x.toInt) (by omega)
  | _ => rfl

theorem decode?_encode (x : α) : (Value.scalar (encode x)).decode? = some x :=
  decode_encode x

end Automata.Toml
