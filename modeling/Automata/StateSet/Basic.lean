import Automata.Text.Outline

namespace Automata

def insertMember (x : Nat) : List Nat → List Nat
  | [] => [x]
  | y :: ys => if x < y then x :: y :: ys else if x = y then y :: ys else y :: insertMember x ys

theorem mem_insertMember {x z : Nat} {xs : List Nat} : z ∈ insertMember x xs ↔ z = x ∨ z ∈ xs := by
  induction xs with
  | nil => simp [insertMember]
  | cons y ys ih =>
    unfold insertMember
    split
    · simp
    · split
      · rename_i hxy
        simp [hxy]
      · simp only [List.mem_cons, ih]
        exact or_left_comm

/-- Insertion keeps the members ascending. -/
theorem insertMember_ascending (x : Nat) {xs : List Nat} (h : xs.Pairwise (· < ·)) :
    (insertMember x xs).Pairwise (· < ·) := by
  induction xs with
  | nil => simp [insertMember]
  | cons y ys ih =>
    obtain ⟨hy, hys⟩ := List.pairwise_cons.mp h
    unfold insertMember
    split
    · rename_i hxy
      refine List.pairwise_cons.mpr ⟨?_, h⟩
      intro z hz
      rcases List.mem_cons.mp hz with rfl | hz
      · exact hxy
      · exact Nat.lt_trans hxy (hy z hz)
    · split
      · exact h
      · refine List.pairwise_cons.mpr ⟨?_, ih hys⟩
        intro z hz
        rcases mem_insertMember.mp hz with rfl | hz
        · omega
        · exact hy z hz

structure StateSet where
  members : Array Nat
  ascending : members.toList.Pairwise (· < ·)
deriving DecidableEq

namespace StateSet

/-- Both directions of a search halve the same range, so the range bounds the search. -/
def holdsBetween (members : Array Nat) (x lo hi : Nat) (bound : hi ≤ members.size) : Bool :=
  if h : lo < hi then
    let mid := (lo + hi) / 2
    match compare x members[mid] with
    | .lt => holdsBetween members x lo mid (by omega)
    | .eq => true
    | .gt => holdsBetween members x (mid + 1) hi bound
  else false
termination_by hi - lo

/-- Membership by binary search. -/
def contains (s : StateSet) (x : Nat) : Bool :=
  holdsBetween s.members x 0 s.members.size (Nat.le_refl _)

def toList (s : StateSet) : List Nat :=
  s.members.toList

instance : Membership Nat StateSet where
  mem s x := x ∈ s.toList

def empty : StateSet :=
  ⟨#[], .nil⟩

/-- The set of the listed handles, in whatever order and however often they are listed. -/
def ofList (xs : List Nat) : StateSet where
  members := (xs.foldr insertMember []).toArray
  ascending := by
    induction xs with
    | nil => exact .nil
    | cons x xs ih => exact insertMember_ascending x ih

def union (s t : StateSet) : StateSet :=
  ofList (s.toList ++ t.toList)

def size (s : StateSet) : Nat :=
  s.members.size

def isEmpty (s : StateSet) : Bool :=
  s.members.isEmpty

instance : Ord StateSet where
  compare s t := compare s.toList t.toList

def outlineHandle (x : Nat) : Outline :=
  .atom ("NodeIndex(" ++ literal x ++ ")")

def outline (s : StateSet) : Outline :=
  .record "MetaState" [("members", .list (s.toList.map outlineHandle))]

theorem ext {s t : StateSet} (h : s.toList = t.toList) : s = t := by
  obtain ⟨xs, _⟩ := s
  obtain ⟨ys, _⟩ := t
  simp only [toList, Array.toList_inj] at h
  subst h
  rfl

theorem mem_def {x : Nat} {s : StateSet} : x ∈ s ↔ x ∈ s.toList := .rfl

@[simp] theorem mem_ofList {x : Nat} {xs : List Nat} : x ∈ ofList xs ↔ x ∈ xs := by
  change x ∈ (xs.foldr insertMember []).toArray.toList ↔ _
  induction xs with
  | nil => simp
  | cons y ys ih => simp_all [mem_insertMember]

@[simp] theorem not_mem_empty {x : Nat} : x ∉ empty := by
  simp [mem_def, toList, empty]

@[simp] theorem mem_union {x : Nat} {s t : StateSet} : x ∈ s.union t ↔ x ∈ s ∨ x ∈ t := by
  rw [union, mem_ofList, List.mem_append]
  rfl

end StateSet

end Automata
