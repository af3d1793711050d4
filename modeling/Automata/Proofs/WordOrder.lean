import Automata.Word
import Mathlib.Data.List.Shortlex

namespace Automata.Word

variable {α : Type} [DecidableEq α]

/-- The places of a word's letters in the alphabet. -/
def places (alphabet word : List α) : List Nat :=
  word.map fun a => alphabet.idxOf a

/-- A shorter word precedes a longer one. Of two words of one length the one precedes whose letter
is listed first in the alphabet where they first differ. -/
def Precedes (alphabet v w : List α) : Prop :=
  List.Shortlex (· < ·) (places alphabet v) (places alphabet w)

variable {alphabet u v w : List α}

@[simp] theorem length_places : (places alphabet w).length = w.length :=
  List.length_map _

theorem precedes_iff :
    Precedes alphabet v w ↔
      v.length < w.length ∨ v.length = w.length ∧ places alphabet v < places alphabet w := by
  rw [Precedes, List.shortlex_def, length_places, length_places]
  rfl

theorem Precedes.irrefl (w : List α) : ¬ Precedes alphabet w w := by
  simp [precedes_iff]

/-- The order of words is transitive. -/
theorem Precedes.trans (h : Precedes alphabet u v) (h' : Precedes alphabet v w) :
    Precedes alphabet u w := by
  rw [precedes_iff] at h h' ⊢
  rcases h with h | ⟨hl, h⟩
  · rcases h' with h' | ⟨hl', _⟩
    · exact .inl (Nat.lt_trans h h')
    · exact .inl (hl' ▸ h)
  · rcases h' with h' | ⟨hl', h'⟩
    · exact .inl (hl ▸ h')
    · exact .inr ⟨hl.trans hl', lt_trans h h'⟩

theorem Precedes.asymm (h : Precedes alphabet v w) : ¬ Precedes alphabet w v :=
  fun h' => Precedes.irrefl v (h.trans h')

theorem nil_precedes (h : w ≠ []) : Precedes alphabet [] w :=
  precedes_iff.mpr (.inl (List.length_pos_of_ne_nil h))

/-- Words of one length that differ do so whatever follows. -/
theorem lex_append {x y : List Nat} (h : List.Lex (· < ·) x y) (hl : x.length = y.length)
    (s t : List Nat) : List.Lex (· < ·) (x ++ s) (y ++ t) := by
  induction h with
  | nil => cases hl
  | cons _ ih => exact .cons (ih (Nat.succ.inj hl))
  | rel h => exact .rel h

theorem Precedes.append (h : Precedes alphabet v w) (a b : α) :
    Precedes alphabet (v ++ [a]) (w ++ [b]) := by
  rw [precedes_iff] at h ⊢
  rcases h with h | ⟨hl, h⟩
  · left
    simpa using h
  · right
    refine ⟨by simp [hl], ?_⟩
    simp only [places, List.map_append]
    exact lex_append h (by simpa using hl) _ _

theorem precedes_append_of_idxOf_lt {a b : α} (h : alphabet.idxOf a < alphabet.idxOf b)
    (w : List α) : Precedes alphabet (w ++ [a]) (w ++ [b]) := by
  rw [precedes_iff]
  right
  refine ⟨by simp, ?_⟩
  simp only [places, List.map_append]
  exact List.Lex.append_left _ (.rel h) _

theorem Precedes.length_le (h : Precedes alphabet v w) : v.length ≤ w.length := by
  rcases precedes_iff.mp h with h | ⟨h, _⟩
  · exact Nat.le_of_lt h
  · exact Nat.le_of_eq h

/-- The letters of an alphabet are listed by their places. -/
theorem idxOf_pairwise {letters : List α} (h : letters.Nodup) :
    letters.Pairwise fun a b => letters.idxOf a < letters.idxOf b := by
  apply List.pairwise_iff_getElem.mpr
  intro i j hi hj hij
  rw [h.idxOf_getElem i hi, h.idxOf_getElem j hj]
  exact hij

end Automata.Word
