import FuzzFrontend.Diagnostic.Style
import FuzzFrontend.Generator.Outline
import FuzzFrontend.Generator.Read
import FuzzFrontend.Generator.Write
import FuzzFrontend.Program.Check
import FuzzFrontend.Program.Read
import FuzzFrontend.Scan.Run
import FuzzFrontend.Tree.Edit
import FuzzFrontend.Tree.Visit
import FuzzFrontend.TypeTable
import FuzzFrontend.Proofs.Program.RoundTrip
import FuzzFrontend.Proofs.Generator.RoundTrip
import FuzzFrontend.Proofs.Generator.Regrouping
import FuzzFrontend.Proofs.Diagnostic.Record
import FuzzFrontend.Proofs.FailureLines
import FuzzFrontend.Proofs.Layout
import FuzzFrontend.Proofs.Lexemes
import FuzzFrontend.Proofs.NestingLimit
import FuzzFrontend.Proofs.Program.EmptyBodies
import FuzzFrontend.Proofs.Literals
import FuzzFrontend.Proofs.Program.Outline
import FuzzFrontend.Proofs.Program.PhaseOrder
import FuzzFrontend.Proofs.Program.Renaming
import FuzzFrontend.Proofs.Program.Respelling
import FuzzFrontend.Proofs.Program.Splicing
import FuzzFrontend.Proofs.Program.TreeDepth
import FuzzFrontend.Proofs.Progress
import FuzzFrontend.Proofs.References
import FuzzFrontend.Proofs.Source.Excerpt
import FuzzFrontend.Proofs.Splitting
import FuzzFrontend.Proofs.Tree.Tracing
import FuzzFrontend.Proofs.TypeTable.Dangling
import FuzzFrontend.Proofs.TypeTable.History
import FuzzFrontend.Proofs.WritingLimit
