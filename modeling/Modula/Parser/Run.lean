import Modula.Options.Settings
import Modula.Parser.Module

/-!
# Parsing a unit

A parse takes a source to an outcome: the tree, the diagnostics with their counts, and the log. The tree has a root
over the filename, the settings and the module; it is empty if the module could not be built. The parse succeeds if
there is a tree and no error was reported.
-/

set_option autoImplicit false

namespace Modula

/-- Why a parse yields no tree. -/
inductive ParseFailure where
  | source (error : SourceError)
  | errors (count : Nat)
deriving DecidableEq, Repr

/-- A failure in words. -/
def ParseFailure.message : ParseFailure → String
  | .source e => e.message
  | .errors n => toString n ++ " error(s) in compilation unit"

/-- What came of a parse. -/
structure Outcome where
  /-- The tree, empty if the module could not be built. -/
  root : Node
  errorCount : Nat
  warningCount : Nat
  /-- The number of nodes dropped while no error had been reported. -/
  dropped : Nat
  /-- Whether the parse was cut short by a bound. -/
  exhausted : Bool
  diagnostics : List Diagnostic
  events : List Event

namespace Outcome

/-- Whether the unit was parsed without errors. -/
def isOk (o : Outcome) : Bool := o.errorCount == 0 && !o.root.isEmpty

/-- The node of the module below the root. -/
def module? (o : Outcome) : Option Node := o.root.subnode? 2

/-- The tree of a successful parse. -/
def result (o : Outcome) : Except ParseFailure Node :=
  if o.isOk then .ok o.root else .error (.errors (max 1 o.errorCount))

end Outcome

/-- The root over a module. -/
def rootOf (o : Options) (filename : String) (module : Node) : Except NodeError Node := do
  let filename ← Node.ofValue .filename filename
  let settings ← Node.ofValues .settings o.settingTerms
  Node.ofBranch .root [filename, settings, module]

/-- Runs the script of a unit on the symbols of a reader. -/
def parseSymbols (o : Options) (kind : UnitKind) (r : SymbolReader) : Node × ParserState :=
  (Script.unit o.context kind).run (Rule.run (Rule.body o.context) (r.total + 1)) (.start o r)

/-- Parses a unit of the kind. -/
def parse (o : Options) (kind : UnitKind) (s : Source) : Outcome :=
  let (module, final) := parseSymbols o kind (.ofSource o s)
  let root := if module.isEmpty then .ok .empty else rootOf o s.filename module
  let reporter := final.reader.reporter
  let refused := match root with
    | .ok _ => []
    | .error e => [.rootRefused e]
  { root := root.toOption.getD .empty
    errorCount := reporter.errorCount
    warningCount := reporter.warningCount
    dropped := final.dropped
    exhausted := final.exhausted
    diagnostics := reporter.diagnostics
    events := final.reader.events.toList ++ refused ++
      [.finished s.filename reporter.errorCount reporter.warningCount final.dropped] }

/-- Parses a text as a unit of the kind. -/
def parseText (o : Options) (kind : UnitKind) (filename : String) (text : String) : Except SourceError Outcome := do
  return parse o kind (← Source.ofText filename text)

end Modula
