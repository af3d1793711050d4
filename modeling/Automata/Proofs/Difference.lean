import Automata.Proofs.Equivalence

namespace Automata

variable {α : Type}

namespace Difference

variable [Literal α]

end Difference

variable [DecidableEq α] {a b : Automaton α} {bound : Nat}

variable [Ord α]

end Automata
