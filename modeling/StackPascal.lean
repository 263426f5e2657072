import StackPascal.Main
import StackPascal.Proofs.Arena.Consistency
import StackPascal.Proofs.CallSignatures
import StackPascal.Proofs.Captures
import StackPascal.Proofs.CleanAnalysis
import StackPascal.Proofs.Execution.Lowering
import StackPascal.Proofs.Grammar.Ending
import StackPascal.Proofs.Grammar.Literals
import StackPascal.Proofs.Grammar.Lookahead
import StackPascal.Proofs.Grammar.Signs
import StackPascal.Proofs.Interning
import StackPascal.Proofs.Legality.Program
import StackPascal.Proofs.Lexing.Reader
import StackPascal.Proofs.Listing.Unambiguous
import StackPascal.Proofs.Machine.Constants
import StackPascal.Proofs.Machine.Initialisation
import StackPascal.Proofs.Machine.WellFormed
import StackPascal.Proofs.Names.Independence
import StackPascal.Proofs.Names.LexicalScoping
import StackPascal.Proofs.NoRepeats
import StackPascal.Proofs.PhaseOrder
import StackPascal.Proofs.Propagation
import StackPascal.Proofs.RoundTrip
import StackPascal.Proofs.Slots
import StackPascal.Proofs.Snippets
import StackPascal.Proofs.SymbolTable
import StackPascal.Proofs.Unlifting
