import Automata.Proofs.Comparison
import Automata.Proofs.Enumeration

namespace Automata

variable {α : Type} [DecidableEq α]

theorem distinguish?_eq_some_iff {a b : Automaton α} {bound : Nat} {word : List α} :
    distinguish? a b bound = some word ↔
      word.length ≤ bound ∧ (∀ x ∈ word, x ∈ a.alphabet) ∧ a.accepts word ≠ b.accepts word ∧
        ∀ v, (∀ x ∈ v, x ∈ a.alphabet) → Word.Precedes a.alphabet v word →
          a.accepts v = b.accepts v := by
  simp [distinguish?, Word.find?_eq_some_iff a.alphabet_nodup]

/-- The word that is found is one over the alphabet of the first automaton and within the bound,
and exactly one of the two automata accepts it. On all words that are shorter, or that are as long
and differ from it first in a letter with an earlier place in the alphabet, the two agree. -/
theorem distinguish?_least (a b : Automaton α) (bound : Nat) :
    (distinguish? a b bound = none ↔
      ∀ word, word.length ≤ bound → (∀ x ∈ word, x ∈ a.alphabet) →
        a.accepts word = b.accepts word) ∧
    ∀ word, distinguish? a b bound = some word ↔
      word.length ≤ bound ∧ (∀ x ∈ word, x ∈ a.alphabet) ∧ a.accepts word ≠ b.accepts word ∧
        ∀ v, (∀ x ∈ v, x ∈ a.alphabet) →
          v.length < word.length ∨ v.length = word.length ∧
            Word.places a.alphabet v < Word.places a.alphabet word →
          a.accepts v = b.accepts v := by
  refine ⟨distinguish?_eq_none_iff, fun word => ?_⟩
  rw [distinguish?_eq_some_iff]
  simp only [Word.precedes_iff]

def DFA.stray : DFA Char :=
  match build [] [.startState "p", .transition "p" 'a' "r", .finalState "r",
    .transition "r" 'b' "r"] with
  | .ok d => d
  | .error _ => empty

/-- The two differ on a word of two letters, and not on one with a letter less. -/
theorem distinguish?_least_stray :
    distinguish? (.nfa NFA.lasso) (.dfa DFA.stray) 1 = none ∧
    (∀ word, word.length ≤ 1 → (∀ x ∈ word, x ∈ NFA.lasso.alphabet) →
      NFA.lasso.accepts word = DFA.stray.accepts word) ∧
    distinguish? (.nfa NFA.lasso) (.dfa DFA.stray) 3 = some ['a', 'b'] ∧
    (∀ x ∈ ['a', 'a'], x ∈ NFA.lasso.alphabet) ∧
    NFA.lasso.accepts ['a', 'a'] = DFA.stray.accepts ['a', 'a'] := by
  have hshort : distinguish? (.nfa NFA.lasso) (.dfa DFA.stray) 1 = none := by decide +kernel
  have hfound : distinguish? (.nfa NFA.lasso) (.dfa DFA.stray) 3 = some ['a', 'b'] := by
    decide +kernel
  have hletter : 'a' ∈ NFA.lasso.alphabet := by decide +kernel
  have hover : ∀ x ∈ ['a', 'a'], x ∈ NFA.lasso.alphabet := by simp [hletter]
  have hplaces : Word.places NFA.lasso.alphabet ['a', 'a'] <
      Word.places NFA.lasso.alphabet ['a', 'b'] := by decide +kernel
  obtain ⟨hnone, _⟩ := distinguish?_least (.nfa NFA.lasso) (.dfa DFA.stray) 1
  obtain ⟨_, hsome⟩ := distinguish?_least (.nfa NFA.lasso) (.dfa DFA.stray) 3
  obtain ⟨_, _, _, hagree⟩ := (hsome _).mp hfound
  exact ⟨hshort, hnone.mp hshort, hfound, hover, hagree _ hover (.inr ⟨rfl, hplaces⟩)⟩

end Automata
