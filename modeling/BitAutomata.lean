import BitAutomata.Label
import BitAutomata.Move
import BitAutomata.Automaton.Basic
import BitAutomata.Automaton.Validate
import BitAutomata.Run
import BitAutomata.Render.Listing
import BitAutomata.Text.Printable
import BitAutomata.Text.Quote
import BitAutomata.Writer
import BitAutomata.Render.Dot
import BitAutomata.Alphabet
import BitAutomata.Epsilon
import BitAutomata.Numbering
import BitAutomata.Explore
import BitAutomata.Product
import BitAutomata.Subset
import BitAutomata.Complement
import BitAutomata.Renumber
import BitAutomata.Language
import BitAutomata.Trace
import BitAutomata.Session
import BitAutomata.Proofs.Labels
import BitAutomata.Proofs.Arcs
import BitAutomata.Proofs.Closure
import BitAutomata.Proofs.WellFormed
import BitAutomata.Proofs.SilentReach
import BitAutomata.Proofs.Epsilon
import BitAutomata.Proofs.Construction
import BitAutomata.Proofs.Subset
import BitAutomata.Proofs.Complement
import BitAutomata.Proofs.Product
import BitAutomata.Proofs.Alphabet
import BitAutomata.Proofs.Completion
import BitAutomata.Proofs.Renumber
import BitAutomata.Proofs.Session
import BitAutomata.Proofs.Filled
import BitAutomata.Proofs.Walk
import BitAutomata.Proofs.Restate
import BitAutomata.Proofs.CommonAlphabet
import BitAutomata.Proofs.ReachablePairs
import BitAutomata.Proofs.ReachableSets
import BitAutomata.Proofs.VariableOrder
import BitAutomata.Proofs.FirstViolation
import BitAutomata.Proofs.Arrival
import BitAutomata.Proofs.Worklist
import BitAutomata.Proofs.BoundedWrites
