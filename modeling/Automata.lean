import Automata.Comparison
import Automata.Construction
import Automata.Settings.Toml
import Automata.Table.Toml
import Automata.Proofs.Search
import Automata.Proofs.Closure
import Automata.Proofs.Canonical
import Automata.Proofs.Path
import Automata.Proofs.CanonicalName
import Automata.Proofs.Naming
import Automata.Proofs.Accessible
import Automata.Proofs.Construction
import Automata.Proofs.Coherence
import Automata.Proofs.Outcome
import Automata.Proofs.Subsets
import Automata.Proofs.Independence
import Automata.Proofs.Limit
import Automata.Proofs.Enumeration
import Automata.Proofs.BreadthFirst
import Automata.Proofs.Correspondence
import Automata.Proofs.Simulation
import Automata.Proofs.Agreement
import Automata.Proofs.Course
import Automata.Proofs.Safety
import Automata.Proofs.Termination
import Automata.Proofs.Worklist
import Automata.Proofs.Layout
import Automata.Proofs.Comparison
import Automata.Proofs.Distinction
import Automata.Proofs.Equivalence
import Automata.Proofs.Difference
import Automata.Proofs.History
import Automata.Proofs.NFAHistory
import Automata.Proofs.DFAHistory
import Automata.Proofs.DeclarationOrder
import Automata.Proofs.Growth
import Automata.Proofs.Report
import Automata.Proofs.Interruption
import Automata.Proofs.Renaming
import Automata.Proofs.Table
import Automata.Proofs.Completeness
import Automata.Proofs.Toml.Settings
import Automata.Proofs.Toml.Table
