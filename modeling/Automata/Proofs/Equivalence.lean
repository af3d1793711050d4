import Automata.Proofs.Distinction

namespace Automata

variable {α : Type} [DecidableEq α] {a b c : Automaton α} {bound : Nat}

/-- Both or neither of two automata accept a word, for all words up to a length. -/
def Automaton.Agree (a b : Automaton α) (bound : Nat) : Prop :=
  ∀ word, word.length ≤ bound → a.accepts word = b.accepts word

namespace Automaton.Agree

theorem refl (a : Automaton α) (bound : Nat) : a.Agree a bound :=
  fun _ _ => rfl

theorem symm (h : a.Agree b bound) : b.Agree a bound :=
  fun word hword => (h word hword).symm

theorem trans (h : a.Agree b bound) (h' : b.Agree c bound) : a.Agree c bound :=
  fun word hword => (h word hword).trans (h' word hword)

theorem mono (h : a.Agree b bound) {shorter : Nat} (hle : shorter ≤ bound) : a.Agree b shorter :=
  fun word hword => h word (hword.trans hle)

end Automaton.Agree

theorem Automaton.accepts_eq_false {word : List α} (h : ¬ ∀ x ∈ word, x ∈ a.alphabet) :
    a.accepts word = false :=
  Bool.eq_false_iff.mpr fun haccepts => h (mem_alphabet_of_accepts haccepts)

/-- A word with a letter that neither automaton has is accepted by neither. -/
theorem distinguish?_eq_none_iff_agree (letters : ∀ x, x ∈ a.alphabet ↔ x ∈ b.alphabet) :
    distinguish? a b bound = none ↔ a.Agree b bound := by
  rw [distinguish?_eq_none_iff]
  refine ⟨fun h word hword => ?_, fun h word hword _ => h word hword⟩
  by_cases hover : ∀ x ∈ word, x ∈ a.alphabet
  · exact h word hword hover
  · have hnot : ¬ ∀ x ∈ word, x ∈ b.alphabet :=
      fun hb => hover fun x hx => (letters x).mpr (hb x hx)
    rw [Automaton.accepts_eq_false hover, Automaton.accepts_eq_false hnot]

/-- All shorter words have been tried before a word is found. -/
theorem distinguish?_length_le (letters : ∀ x, x ∈ a.alphabet ↔ x ∈ b.alphabet)
    {v w : List α} (hv : distinguish? a b bound = some v) (hw : distinguish? b a bound = some w) :
    v.length ≤ w.length := by
  obtain ⟨_, _, _, hleast⟩ := distinguish?_eq_some_iff.mp hv
  obtain ⟨_, hover, hne, _⟩ := distinguish?_eq_some_iff.mp hw
  by_contra hlonger
  have hbefore : Word.Precedes a.alphabet w v :=
    Word.precedes_iff.mpr (.inl (Nat.lt_of_not_le hlonger))
  exact hne (hleast w (fun x hx => (letters x).mpr (hover x hx)) hbefore).symm

/-- The words found in the two directions can differ, but not in their length. -/
theorem distinguish?_length_comm (letters : ∀ x, x ∈ a.alphabet ↔ x ∈ b.alphabet) :
    (distinguish? a b bound).map List.length = (distinguish? b a bound).map List.length := by
  have letters' : ∀ x, x ∈ b.alphabet ↔ x ∈ a.alphabet := fun x => (letters x).symm
  have hnone : distinguish? a b bound = none ↔ distinguish? b a bound = none := by
    rw [distinguish?_eq_none_iff_agree letters, distinguish?_eq_none_iff_agree letters']
    exact ⟨.symm, .symm⟩
  cases hv : distinguish? a b bound with
  | none => rw [hnone.mp hv]
  | some v =>
    cases hw : distinguish? b a bound with
    | none => rw [hnone.mpr hw] at hv; cases hv
    | some w =>
      have hle := distinguish?_length_le letters hv hw
      have hge := distinguish?_length_le letters' hw hv
      exact congrArg some (Nat.le_antisymm hle hge)

variable [Ord α]

theorem sameLanguage_iff_agree :
    sameLanguage a b bound = true ↔
      sorted a.alphabet = sorted b.alphabet ∧ a.Agree b bound := by
  simp only [sameLanguage, Bool.and_eq_true, decide_eq_true_eq, Option.isNone_iff_eq_none]
  refine and_congr_right fun hsorted => distinguish?_eq_none_iff_agree fun x => ?_
  rw [← mem_sorted, hsorted, mem_sorted]

/-- The comparison asks for the same letters and for agreement on all words up to the bound. So it
relates every automaton to itself, does not depend on the order of the two, and carries over from
two pairs to the third; what holds at a bound holds at all lower ones. When the letters are the
same, both directions find no word or find words of one length. -/
theorem sameLanguage_equivalence (a b c : Automaton α) (bound : Nat) :
    (sameLanguage a b bound = true ↔
      sorted a.alphabet = sorted b.alphabet ∧ a.Agree b bound) ∧
    sameLanguage a a bound = true ∧
    sameLanguage a b bound = sameLanguage b a bound ∧
    (sameLanguage a b bound = true → sameLanguage b c bound = true →
      sameLanguage a c bound = true) ∧
    (sameLanguage a b bound = true → ∀ shorter ≤ bound, sameLanguage a b shorter = true) ∧
    ((∀ x, x ∈ a.alphabet ↔ x ∈ b.alphabet) →
      (distinguish? a b bound).map List.length = (distinguish? b a bound).map List.length) := by
  refine ⟨sameLanguage_iff_agree, ?_, ?_, ?_, ?_, distinguish?_length_comm⟩
  · exact sameLanguage_iff_agree.mpr ⟨rfl, .refl a bound⟩
  · rw [Bool.eq_iff_iff, sameLanguage_iff_agree, sameLanguage_iff_agree]
    exact and_congr eq_comm ⟨.symm, .symm⟩
  · simp only [sameLanguage_iff_agree]
    rintro ⟨hab, h⟩ ⟨hbc, h'⟩
    exact ⟨hab.trans hbc, h.trans h'⟩
  · simp only [sameLanguage_iff_agree]
    rintro ⟨hab, h⟩ shorter hle
    exact ⟨hab, h.mono hle⟩

def DFA.crossing : DFA Char :=
  match build [] [.startState "p", .transition "p" 'a' "q", .transition "q" 'b' "r",
    .transition "p" 'b' "s", .transition "s" 'a' "r", .finalState "r"] with
  | .ok d => d
  | .error _ => empty

/-- Compared with an automaton that accepts nothing and lists the letters the other way round, it
gives one word in one direction and another in the other. -/
theorem sameLanguage_equivalence_crossing :
    distinguish? (.dfa .crossing) (.dfa (.withAlphabet ['b', 'a'])) 2 = some ['a', 'b'] ∧
    distinguish? (.dfa (.withAlphabet ['b', 'a'])) (.dfa .crossing) 2 = some ['b', 'a'] ∧
    (∀ x, x ∈ DFA.crossing.alphabet ↔ x ∈ (DFA.withAlphabet ['b', 'a']).alphabet) ∧
    (distinguish? (.dfa .crossing) (.dfa (.withAlphabet ['b', 'a'])) 2).map List.length =
      (distinguish? (.dfa (.withAlphabet ['b', 'a'])) (.dfa .crossing) 2).map List.length := by
  have hletters : ∀ x, x ∈ DFA.crossing.alphabet ↔ x ∈ (DFA.withAlphabet ['b', 'a']).alphabet := by
    have hcrossing : DFA.crossing.alphabet = ['a', 'b'] := by decide +kernel
    simp [hcrossing, DFA.withAlphabet, or_comm]
  obtain ⟨_, _, _, _, _, hlength⟩ := sameLanguage_equivalence (.dfa .crossing)
    (.dfa (.withAlphabet ['b', 'a'])) (.dfa .crossing) 2
  exact ⟨by decide +kernel, by decide +kernel, hletters, hlength hletters⟩

end Automata
