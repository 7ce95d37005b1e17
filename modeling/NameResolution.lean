import NameResolution.Json.Text
import NameResolution.Json.Values
import NameResolution.Program.Catalog
import NameResolution.Resolver.Config.Text
import NameResolution.Resolver.Phases
import NameResolution.Resolver.Resolution
import NameResolution.Resolver.Sweep
import NameResolution.Syntax.Equality
import NameResolution.Syntax.Literal
import NameResolution.Proofs.Frames
import NameResolution.Proofs.View
import NameResolution.Proofs.Locality
import NameResolution.Proofs.Meaning
import NameResolution.Proofs.Fate
import NameResolution.Proofs.Tables
import NameResolution.Proofs.Pass
import NameResolution.Proofs.Accounting
import NameResolution.Proofs.Capture
import NameResolution.Proofs.Completeness
import NameResolution.Proofs.Counting
import NameResolution.Proofs.Integrity
import NameResolution.Proofs.Outcome
import NameResolution.Proofs.Resume
import NameResolution.Proofs.Repetition
import NameResolution.Proofs.SecondPass
import NameResolution.Proofs.Stopping
import NameResolution.Proofs.Batches
import NameResolution.Proofs.Builtins
import NameResolution.Proofs.Capping
import NameResolution.Proofs.FailingOccurrences
import NameResolution.Proofs.FirstFailure
import NameResolution.Proofs.Growth
import NameResolution.Proofs.Reporting
import NameResolution.Proofs.Serialization
import NameResolution.Proofs.Sweep
import NameResolution.Proofs.ExactTables
import NameResolution.Proofs.Catalog
import NameResolution.Proofs.Boundary
import NameResolution.Proofs.IntegerLiteral
import NameResolution.Program.Visitor
import NameResolution.Proofs.LineTable
import NameResolution.Proofs.Visiting
import NameResolution.Syntax.Construction
import NameResolution.Proofs.AnnotationSlots
import NameResolution.Proofs.AwaitFlag
import NameResolution.Proofs.Sameness
import NameResolution.Proofs.FloatLiteral
import NameResolution.Proofs.ScopeRuns
import NameResolution.Proofs.PositionOrder
