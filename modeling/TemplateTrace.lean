import TemplateTrace.Main
import TemplateTrace.Proofs.Search
import TemplateTrace.Proofs.Lockstep
import TemplateTrace.Proofs.CallGraph
import TemplateTrace.Proofs.Memoizing
import TemplateTrace.Proofs.Course
import TemplateTrace.Proofs.Coverage
import TemplateTrace.Proofs.Connectors
import TemplateTrace.Proofs.Store
import TemplateTrace.Proofs.Lexemes
import TemplateTrace.Proofs.Written
import TemplateTrace.Proofs.Reports
import TemplateTrace.Proofs.Duality
import TemplateTrace.Proofs.Rooted
import TemplateTrace.Proofs.Dot
import TemplateTrace.Proofs.Indented
import TemplateTrace.Proofs.Joints
import TemplateTrace.Proofs.Embedded
import TemplateTrace.Proofs.Shapes
import TemplateTrace.Proofs.Records
import TemplateTrace.Proofs.EventFields
import TemplateTrace.Proofs.Snapshots
import TemplateTrace.Proofs.NameGrammar
import TemplateTrace.Proofs.Wrapping
import TemplateTrace.Proofs.ExitCodes
import TemplateTrace.Proofs.Colorless
import TemplateTrace.Proofs.Unmatched
import TemplateTrace.Proofs.Emphasis
import TemplateTrace.Proofs.Tree
import TemplateTrace.Proofs.Bounds
import TemplateTrace.Proofs.Locality
import TemplateTrace.Proofs.Listing
import TemplateTrace.Proofs.Adjacency
import TemplateTrace.Proofs.WordLayout
