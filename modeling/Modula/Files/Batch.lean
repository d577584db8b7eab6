import Modula.Files.Directory
import Modula.Parser.Run

/-!
# Parsing files

A file is parsed as the unit that is asked for or that its name tells. A batch takes several files, each on its own, and
answers in the order of the paths; if only the syntax is to be checked, it keeps no trees.
-/

set_option autoImplicit false

namespace Modula

/-- What came of one file: a result, the diagnostics, and the log. -/
structure FileOutcome (α : Type) where
  path : String
  result : Except ParseFailure α
  diagnostics : List Diagnostic
  events : List Event

namespace FileOutcome

/-- Whether the file was parsed without errors. -/
def isOk {α : Type} (f : FileOutcome α) : Bool := f.result.toBool

/-- The outcome with its result changed. -/
def map {α β : Type} (g : α → β) (f : FileOutcome α) : FileOutcome β :=
  { path := f.path, result := f.result.map g, diagnostics := f.diagnostics, events := f.events }

end FileOutcome

/-- Parses the file at a path as a unit of the kind. -/
def parseFile (d : Directory) (o : Options) (kind : UnitKind) (path : String) : FileOutcome Node :=
  match Source.ofFile d path with
  | .error e => { path := path, result := .error (.source e), diagnostics := [], events := [] }
  | .ok s =>
    let outcome := parse o kind s
    { path := path, result := outcome.result, diagnostics := outcome.diagnostics, events := outcome.events }

/-- Parses the file at a path as the unit that its name tells, and keeps no tree. -/
def checkSyntax (d : Directory) (o : Options) (path : String) : FileOutcome Unit :=
  (parseFile d o (Path.unitKind path) path).map fun _ => ()

/-- Parses the files at the paths, each as the unit that its name tells. -/
def parseFiles (d : Directory) (o : Options) (paths : List String) : List (FileOutcome Node) :=
  paths.map fun path =>
    if o.syntaxOnly then (checkSyntax d o path).map fun () => .empty
    else parseFile d o (Path.unitKind path) path

/-- The log of a batch, file by file. -/
def batchLog {α : Type} (outcomes : List (FileOutcome α)) : List Event :=
  .batch outcomes.length :: outcomes.flatMap (·.events)

end Modula
