import Onepass.Main
import Onepass.Proofs.Lockstep.Program
import Onepass.Tool.World
import Onepass.Proofs.Closed
import Onepass.Proofs.Grammar.Program
import Onepass.Proofs.Assembly.Agreement
import Onepass.Proofs.Interpreter
import Onepass.Proofs.Machine.Ledger
import Onepass.Proofs.Simulation.State
import Onepass.Proofs.Simulation.Outcome
import Onepass.Proofs.Machine.Robust
import Onepass.Proofs.Totality.Compiler
import Onepass.Proofs.Simulation.Arithmetic
import Onepass.Proofs.Simulation.Arrays
import Onepass.Proofs.Simulation.Calls
import Onepass.Proofs.Simulation.Data
import Onepass.Proofs.Simulation.Output
import Onepass.Proofs.Simulation.Selection
import Onepass.Proofs.Constants
import Onepass.Proofs.Renaming.Compiler
import Onepass.Proofs.Lexical.Partition
import Onepass.Proofs.Simulation.Refinement
import Onepass.Proofs.Simulation.Safety
import Onepass.Proofs.Simulation.Printing
import Onepass.Proofs.Assembly.Alignment
import Onepass.Proofs.Assembly.Listing
import Onepass.Proofs.Grammar.Rendering
import Onepass.Proofs.Reports.Compiler
import Onepass.Proofs.Machine.Division
import Onepass.Proofs.Types
import Onepass.Proofs.Machine.Comparisons
import Onepass.Proofs.Tool.Output
import Onepass.Proofs.Assembly.Quoting
import Onepass.Proofs.Captures
