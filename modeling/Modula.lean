import Modula.Files.Batch
import Modula.Options.Invocation
import Modula.Proofs.Parser.Termination
import Modula.Proofs.Parser.Reports
import Modula.Proofs.Tree.Losses
import Modula.Proofs.Parser.DeclarationRows
import Modula.Proofs.Scan.Lossless
import Modula.Tree.Text
import Modula.Proofs.Parser.ModuleRows
import Modula.Proofs.Scan.Faults
import Modula.Proofs.Parser.Acceptance
import Modula.Proofs.Tree.ModuleNode
import Modula.Proofs.Parser.Outcome
import Modula.Proofs.Tree.Reading
import Modula.Proofs.Tree.ProductionReadings
import Modula.Proofs.Parser.Settled
import Modula.Proofs.Parser.SourceOrder
import Modula.Proofs.Parser.Lockstep
import Modula.Proofs.Scan.Contexts
import Modula.Proofs.Scan.Insertion
import Modula.Proofs.Parser.Trivia
import Modula.Proofs.Reader.ReportOrder
import Modula.Proofs.Parser.ReportOrder
import Modula.Proofs.Grammar.LookaheadSets
import Modula.Proofs.Parser.Layout
import Modula.Proofs.Tree.Holding
import Modula.Proofs.Parser.Pointing
import Modula.Proofs.Parser.DiagnosticOptions
import Modula.Proofs.Scan.Respacing
import Modula.Proofs.Tree.Gating
import Modula.Proofs.Options.ArgumentSets
import Modula.Proofs.Grammar.PhraseDerivations
import Modula.Proofs.Parser.ExpressionStructure
import Modula.Proofs.Reader.Transparency
import Modula.Proofs.Reader.SymbolReports
import Modula.Proofs.Parser.Expectations
import Modula.Proofs.Scan.Concatenation
import Modula.Proofs.Parser.Junk
import Modula.Proofs.Parser.MissingSemicolon
import Modula.Proofs.Scan.Sections
import Modula.Proofs.Tree.TextReader
import Modula.Proofs.Files.UnitKinds
import Modula.Proofs.Source.OnePass
import Modula.Proofs.Tree.Preorder
