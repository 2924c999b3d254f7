import Zed.Compilation
import Zed.Proofs.Grammar.Completeness
import Zed.Proofs.Grammar.Accounting
import Zed.Proofs.Scope.Path
import Zed.Proofs.Number.Rounding
import Zed.Proofs.Number.Spelling
import Zed.Proofs.Grammar.WellFormed
import Zed.Proofs.Token.Alphabet
import Zed.Proofs.Meaning.Execution
import Zed.Proofs.Meaning.Translation
import Zed.Proofs.Meaning.Simulation
import Zed.Proofs.Python.Reader
import Zed.Proofs.Python.Phrase
import Zed.Proofs.Script.Expression
import Zed.Proofs.Script.Line
import Zed.Proofs.Script.Layout
import Zed.Proofs.Script.Body
import Zed.Proofs.Script.Text
import Zed.Proofs.Meaning.Preservation
import Zed.Proofs.Grammar.Congruence
import Zed.Proofs.Grammar.Online
import Zed.Proofs.Grammar.Blame
import Zed.Proofs.Compilation.Gate
import Zed.Proofs.Grammar.Gap
import Zed.Proofs.Grammar.Containment
import Zed.Proofs.Token.Cut
import Zed.Proofs.Token.Coverage
import Zed.Proofs.Token.Printing
import Zed.Proofs.Program.Erasure
import Zed.Proofs.Grammar.Kinds
import Zed.Proofs.Grammar.Printing
import Zed.Proofs.Scope.Names
import Zed.Proofs.Script.Imprint
import Zed.Proofs.Script.Recovery
import Zed.Proofs.Compilation.Noninterference
import Zed.Proofs.Grammar.Leaves
import Zed.Proofs.Program.Integrity
import Zed.Proofs.Python.Blocks
import Zed.Proofs.Script.Blocks
import Zed.Proofs.Python.Names
import Zed.Proofs.Script.Names
import Zed.Proofs.Compilation.Shadowing
import Zed.Proofs.Scope.Order
import Zed.Proofs.Compilation.Excerpt
import Zed.Proofs.Scope.Presets
import Zed.Proofs.Token.Locality
import Zed.Proofs.Token.Isolation
import Zed.Proofs.Token.Pattern
import Zed.Proofs.Token.Table
import Zed.Proofs.Grammar.Terminators
import Zed.Proofs.Token.Margins
import Zed.Proofs.Number.Order
import Zed.Proofs.Number.Numeral
import Zed.Proofs.Script.Literal
import Zed.Proofs.Python.Range
import Zed.Proofs.Script.Passes
import Zed.Proofs.Script.Quoted
import Zed.Proofs.Grammar.Progress
import Zed.Proofs.Grammar.Nesting
import Zed.Proofs.Token.Bytes
import Zed.Proofs.Token.Offsets
import Zed.Proofs.Token.Cursor
import Zed.Proofs.Scope.Frames
