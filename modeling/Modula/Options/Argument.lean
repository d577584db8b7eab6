import Modula.Options.Basic
import Modula.Text.Blank

/-!
# Command line arguments

Each argument is classified as a whole: it is one of the known options, spelled exactly, or it has the form of a
filename, or it is unknown. An option in turn says which setting it makes, so the groups of options are the
constructors of `Argument`.
-/

set_option autoImplicit false

namespace Modula

/-- A request for information in place of a compilation. -/
inductive InfoRequest where
  | help
  | version
  | license
deriving DecidableEq, Repr

/-- A qualifier of the dialects of the report. -/
inductive Qualifier where
  | safer
  | compliant
deriving DecidableEq, Repr

/-- What a compilation is limited to: checking the syntax, or one product. -/
inductive SoleProduct where
  | syntaxCheck
  | product (product : Product)
deriving DecidableEq, Repr

/-- A classified argument. -/
inductive Argument where
  | unknown
  | info (request : InfoRequest)
  | dialect (dialect : Dialect)
  | qualifier (qualifier : Qualifier)
  | sole (product : SoleProduct)
  | product (product : Product) (on : Bool)
  | identifiers (mode : IdentifierMode)
  | comments (mode : CommentMode)
  | capability (capability : Capability) (on : Bool)
  | diagnostics (switch : DiagnosticSwitch)
  | sourceFile
deriving DecidableEq, Repr

namespace Argument

/-- The options with their spellings. -/
def options : List (String × Argument) :=
  [("--help", .info .help), ("-h", .info .help), ("--version", .info .version), ("-V", .info .version),
   ("--license", .info .license),
   ("--pim3", .dialect .pim3), ("--pim4", .dialect .pim4), ("--ext", .dialect .ext),
   ("--safer", .qualifier .safer), ("--compliant", .qualifier .compliant),
   ("--syntax-only", .sole .syntaxCheck), ("--ast-only", .sole (.product .ast)),
   ("--graph-only", .sole (.product .graph)), ("--xlat-only", .sole (.product .xlat)),
   ("--obj-only", .sole (.product .obj)),
   ("--ast", .product .ast true), ("--no-ast", .product .ast false),
   ("--graph", .product .graph true), ("--no-graph", .product .graph false),
   ("--xlat", .product .xlat true), ("--no-xlat", .product .xlat false),
   ("--obj", .product .obj true), ("--no-obj", .product .obj false),
   ("--use-identifiers-verbatim", .identifiers .verbatim),
   ("--transliterate-identifiers", .identifiers .transliterate),
   ("--preserve-comments", .comments .preserve), ("--strip-comments", .comments .strip),
   ("--synonyms", .capability .synonyms true), ("--no-synonyms", .capability .synonyms false),
   ("--octal-literals", .capability .octalLiterals true), ("--no-octal-literals", .capability .octalLiterals false),
   ("--explicit-cast", .capability .explicitCast true), ("--no-explicit-cast", .capability .explicitCast false),
   ("--coroutines", .capability .coroutines true), ("--no-coroutines", .capability .coroutines false),
   ("--variant-records", .capability .variantRecords true),
   ("--no-variant-records", .capability .variantRecords false),
   ("--local-modules", .capability .localModules true), ("--no-local-modules", .capability .localModules false),
   ("--lowline-identifiers", .capability .lowlineIdentifiers true),
   ("--no-lowline-identifiers", .capability .lowlineIdentifiers false),
   ("--to-do-statement", .capability .toDoStatement true),
   ("--no-to-do-statement", .capability .toDoStatement false),
   ("--verbose", .diagnostics .verbose), ("-v", .diagnostics .verbose),
   ("--lexer-debug", .diagnostics .lexerDebug), ("--parser-debug", .diagnostics .parserDebug),
   ("--show-settings", .diagnostics .showSettings), ("--errant-semicolons", .diagnostics .errantSemicolons)]

/-- Whether a text has the form of a filename: not empty, without blanks, and not started by a hyphen. -/
def isFilename : List Char → Bool
  | [] => false
  | c :: rest => c != '-' && (c :: rest).all (!Text.isBlank ·)

/-- Classifies one complete argument. -/
def classify (arg : String) : Argument :=
  match options.lookup arg with
  | some option => option
  | none => if isFilename arg.toList then .sourceFile else .unknown

end Argument

end Modula
