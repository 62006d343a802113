import ScalarLang.Command.InMemory
import ScalarLang.Main
import ScalarLang.Proofs.BlankLines
import ScalarLang.Proofs.Caret
import ScalarLang.Proofs.Control
import ScalarLang.Proofs.Correctness
import ScalarLang.Proofs.Coverage
import ScalarLang.Proofs.Faults
import ScalarLang.Proofs.Initialisation
import ScalarLang.Proofs.Insertion
import ScalarLang.Proofs.IntLiterals
import ScalarLang.Proofs.LabelPolicy
import ScalarLang.Proofs.LoopFree
import ScalarLang.Proofs.Nesting
import ScalarLang.Proofs.NormalText
import ScalarLang.Proofs.Persistence
import ScalarLang.Proofs.Phases
import ScalarLang.Proofs.Precedence
import ScalarLang.Proofs.Reporting
import ScalarLang.Proofs.SpanNesting
import ScalarLang.Proofs.Spelling
import ScalarLang.Proofs.StackDiscipline
import ScalarLang.Proofs.Strays
import ScalarLang.Proofs.Termination
import ScalarLang.Proofs.Wraparound
import ScalarLang.Source.Reader
