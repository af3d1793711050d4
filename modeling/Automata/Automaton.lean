import Automata.DFA.Run
import Automata.NFA.Run

namespace Automata

inductive Automaton (α : Type) where
  | nfa (n : NFA α)
  | dfa (d : DFA α)

namespace Automaton

variable {α : Type}

def alphabet : Automaton α → List α
  | nfa n => n.alphabet
  | dfa d => d.alphabet

def accepts [DecidableEq α] : Automaton α → List α → Bool
  | nfa n => n.accepts
  | dfa d => d.accepts

end Automaton

end Automata
