import Modula.Grammar.Production

/-!
# Options

Options are the snapshot that one parse works under: the dialect and its qualifiers, the capabilities of the language,
the products of the compilation, the treatment of identifiers and comments, and the diagnostic switches. The dialect
fixes the capabilities a parse starts from:

| capability          | PIM | safer | extended |
|---------------------|-----|-------|----------|
| synonyms            | on  | off   | off      |
| octal literals      | on  | off   | off      |
| explicit cast       | off | on    | on       |
| coroutines          | on  | off   | off      |
| variant records     | on  | off   | off      |
| local modules       | on  | off   | off      |
| lowline identifiers | off | off   | on       |
| to-do statement     | off | off   | on       |
| const parameters    | off | off   | on       |
-/

set_option autoImplicit false

namespace Modula

/-- A dialect of the language: the third or fourth edition of its report, or the extended mode. -/
inductive Dialect where
  | pim3
  | pim4
  | ext
deriving DecidableEq, Repr

/-- The name of a dialect in settings and logs. -/
def Dialect.text : Dialect → String
  | .pim3 => "pim3"
  | .pim4 => "pim4"
  | .ext => "ext"

instance : Inhabited Dialect := ⟨.pim4⟩

/-- A capability that an argument can switch. -/
inductive Capability where
  | synonyms
  | octalLiterals
  | explicitCast
  | coroutines
  | variantRecords
  | localModules
  | lowlineIdentifiers
  | toDoStatement
deriving DecidableEq, Repr

/-- What of the language is available; only the capability of const parameters has no argument of its own. -/
structure Capabilities where
  synonyms : Bool
  octalLiterals : Bool
  explicitCast : Bool
  coroutines : Bool
  variantRecords : Bool
  localModules : Bool
  lowlineIdentifiers : Bool
  toDoStatement : Bool
  constParameters : Bool
deriving DecidableEq, Repr

namespace Capabilities

/-- The language of the report's editions. -/
def pim : Capabilities :=
  { synonyms := true, octalLiterals := true, explicitCast := false, coroutines := true, variantRecords := true,
    localModules := true, lowlineIdentifiers := false, toDoStatement := false, constParameters := false }

/-- The report's language without its unsafe parts. -/
def safer : Capabilities :=
  { synonyms := false, octalLiterals := false, explicitCast := true, coroutines := false, variantRecords := false,
    localModules := false, lowlineIdentifiers := false, toDoStatement := false, constParameters := false }

/-- The extended language: the safer one with additions. -/
def ext : Capabilities :=
  { safer with lowlineIdentifiers := true, toDoStatement := true, constParameters := true }

/-- The capabilities with one of them switched. -/
def set (c : Capabilities) (capability : Capability) (on : Bool) : Capabilities :=
  match capability with
  | .synonyms => { c with synonyms := on }
  | .octalLiterals => { c with octalLiterals := on }
  | .explicitCast => { c with explicitCast := on }
  | .coroutines => { c with coroutines := on }
  | .variantRecords => { c with variantRecords := on }
  | .localModules => { c with localModules := on }
  | .lowlineIdentifiers => { c with lowlineIdentifiers := on }
  | .toDoStatement => { c with toDoStatement := on }

end Capabilities

/-- Something that a compilation can produce. -/
inductive Product where
  | ast
  | graph
  | xlat
  | obj
deriving DecidableEq, Repr

/-- What a compilation produces. -/
structure Products where
  ast : Bool
  graph : Bool
  xlat : Bool
  obj : Bool
deriving DecidableEq, Repr

namespace Products

/-- No product at all. -/
def none : Products := ⟨false, false, false, false⟩

/-- The products with one of them switched. -/
def set (p : Products) (product : Product) (on : Bool) : Products :=
  match product with
  | .ast => { p with ast := on }
  | .graph => { p with graph := on }
  | .xlat => { p with xlat := on }
  | .obj => { p with obj := on }

/-- One product and no other. -/
def only (product : Product) : Products := none.set product true

end Products

/-- How identifiers appear in products. -/
inductive IdentifierMode where
  | verbatim
  | transliterate
deriving DecidableEq, Inhabited, Repr

/-- What becomes of comments. -/
inductive CommentMode where
  | preserve
  | strip
deriving DecidableEq, Inhabited, Repr

/-- A switch for diagnostics. -/
inductive DiagnosticSwitch where
  | verbose
  | lexerDebug
  | parserDebug
  | showSettings
  | errantSemicolons
deriving DecidableEq, Repr

/-- The diagnostic switches: whether source lines are echoed, scanning and parsing are logged, settings are shown, and
errant semicolons are accepted without a warning. -/
structure DiagnosticOptions where
  verbose : Bool
  lexerDebug : Bool
  parserDebug : Bool
  showSettings : Bool
  errantSemicolons : Bool
deriving DecidableEq, Repr

namespace DiagnosticOptions

/-- All switches off. -/
def none : DiagnosticOptions := ⟨false, false, false, false, false⟩

/-- The switches with one of them turned on. -/
def turnOn (d : DiagnosticOptions) : DiagnosticSwitch → DiagnosticOptions
  | .verbose => { d with verbose := true }
  | .lexerDebug => { d with lexerDebug := true }
  | .parserDebug => { d with parserDebug := true }
  | .showSettings => { d with showSettings := true }
  | .errantSemicolons => { d with errantSemicolons := true }

end DiagnosticOptions

/-- The snapshot that one parse works under. -/
structure Options where
  dialect : Dialect
  safer : Bool
  compliant : Bool
  capabilities : Capabilities
  syntaxOnly : Bool
  products : Products
  identifiers : IdentifierMode
  comments : CommentMode
  diagnostics : DiagnosticOptions
deriving DecidableEq, Repr

namespace Options

/-- The options that a dialect starts from. -/
def ofDialect (dialect : Dialect) : Options :=
  { dialect := dialect
    safer := false
    compliant := false
    capabilities := if dialect = .ext then .ext else .pim
    syntaxOnly := false
    products := .only .xlat
    identifiers := .verbatim
    comments := .preserve
    diagnostics := .none }

/-- The options of the default dialect. -/
def standard : Options := ofDialect default

instance : Inhabited Options := ⟨standard⟩

/-- The options with the safer qualifier: the capabilities become those of the safer language. -/
def makeSafer (o : Options) : Options := { o with safer := true, capabilities := .safer }

/-- What the grammar depends on. -/
def context (o : Options) : Context := ⟨o.capabilities.constParameters, o.capabilities.variantRecords⟩

end Options

end Modula
