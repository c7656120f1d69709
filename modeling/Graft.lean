import Graft.Main
import Graft.Proofs.KeepShape
import Graft.Store
import Graft.Proofs.Reprint.Chain
import Graft.Proofs.Reprint.NestedProgram
import Graft.Proofs.StoreRuns
import Graft.Proofs.Unplaced
import Graft.Proofs.UnplacedPrint
import Graft.Proofs.Pipeline
import Graft.Proofs.Renaming
import Graft.Proofs.RenamedRule
import Graft.Proofs.SourceOrder
import Graft.Proofs.SpliceFrame
import Graft.Proofs.Selection
import Graft.Proofs.EnclosedJumps
import Graft.Proofs.WildcardOccurrences
import Graft.Proofs.RuleDelimiter
import Graft.Proofs.Reprint.StringValues
import Graft.Proofs.StringLiteral
import Graft.Proofs.IntegerLiteral
import Graft.Proofs.StatementPlaces
import Graft.Proofs.PureLayout
import Graft.Proofs.Reprint.StringToken
import Graft.Proofs.FailedLookup
import Graft.Proofs.Congruence
import Graft.Proofs.TouchedFiles
import Graft.Proofs.Ecma.Printed
