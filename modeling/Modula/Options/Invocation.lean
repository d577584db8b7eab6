import Modula.Diagnostic.Code
import Modula.Options.Argument

/-!
# Resolving a command line

A command line is resolved into a request and options. Arguments are gathered one after the other; an argument that
contradicts an earlier one is an error that names both, and no option silently wins over another.
-/

set_option autoImplicit false

namespace Modula

/-- Why a command line is refused. -/
inductive OptionsError where
  | invalidOption (arg : String)
  | invalidArgument (arg : String)
  | invalidFilename (arg : String)
  | conflict (first : String) (second : String)
deriving DecidableEq, Repr

namespace OptionsError

/-- The code reported for an error. -/
def code : OptionsError → Code
  | .invalidOption _ => .invalidOption
  | .invalidArgument _ => .invalidArgument
  | .invalidFilename _ => .invalidFilename
  | .conflict _ _ => .conflictingOptions

/-- An error in words. -/
def message : OptionsError → String
  | .invalidOption arg => "invalid option: " ++ arg
  | .invalidArgument arg => "invalid argument: " ++ arg
  | .invalidFilename arg => "invalid filename: " ++ arg
  | .conflict first second => "option " ++ second ++ " conflicts with " ++ first

end OptionsError

/-- What a command line asks for. -/
inductive Request where
  | info (request : InfoRequest)
  | compile (sources : List String)
deriving DecidableEq, Repr

/-- A resolved command line. -/
structure Invocation where
  request : Request
  options : Options
deriving DecidableEq, Repr

/-- A choice that can be made once, with the argument that made it. -/
abbrev Choice (α : Type) : Type := Option (α × String)

/-- Makes a choice; making the same choice again changes nothing, and making another one is a conflict. -/
def Choice.make {α : Type} [DecidableEq α] (choice : Choice α) (value : α) (arg : String) :
    Except OptionsError (Choice α) :=
  match choice with
  | none => .ok (some (value, arg))
  | some (made, first) => if made = value then .ok choice else .error (.conflict first arg)

/-- A setting that was switched, the value it got, and the argument that did it. -/
structure Toggle (α : Type) where
  subject : α
  on : Bool
  arg : String

/-- Adds a switched setting after the earlier ones; switching the same setting both ways is a conflict. -/
def Toggle.add {α : Type} [DecidableEq α] (toggles : List (Toggle α)) (subject : α) (on : Bool) (arg : String) :
    Except OptionsError (List (Toggle α)) :=
  match toggles.find? (fun t => t.subject = subject ∧ t.on ≠ on) with
  | some t => .error (.conflict t.arg arg)
  | none => .ok (toggles ++ [⟨subject, on, arg⟩])

/-- What the arguments read so far have settled. -/
structure Gathered where
  info : Option InfoRequest := none
  dialect : Choice Dialect := none
  qualifier : Choice Qualifier := none
  sole : Choice SoleProduct := none
  products : List (Toggle Product) := []
  identifiers : Choice IdentifierMode := none
  comments : Choice CommentMode := none
  capabilities : List (Toggle Capability) := []
  diagnostics : List DiagnosticSwitch := []
  sources : List String := []

namespace Gathered

/-- The endings of the names of source files. -/
def suffixes : List String := [".def", ".mod", ".DEF", ".MOD"]

/-- Whether a name ends as a source file's name does, with something in front of the ending. -/
def hasSourceSuffix (arg : String) : Bool :=
  suffixes.any fun suffix => suffix.toList.length < arg.toList.length && suffix.toList.isSuffixOf arg.toList

/-- Takes in the next argument. -/
def accept (g : Gathered) (arg : String) : Except OptionsError Gathered :=
  match Argument.classify arg with
  | .info request => .ok { g with info := g.info.or (some request) }
  | .dialect dialect => do return { g with dialect := ← g.dialect.make dialect arg }
  | .qualifier qualifier => do return { g with qualifier := ← g.qualifier.make qualifier arg }
  | .sole product =>
    match g.products with
    | t :: _ => .error (.conflict t.arg arg)
    | [] => do return { g with sole := ← g.sole.make product arg }
  | .product product on =>
    match g.sole with
    | some (_, first) => .error (.conflict first arg)
    | none => do return { g with products := ← Toggle.add g.products product on arg }
  | .identifiers mode => do return { g with identifiers := ← g.identifiers.make mode arg }
  | .comments mode => do return { g with comments := ← g.comments.make mode arg }
  | .capability capability on => do return { g with capabilities := ← Toggle.add g.capabilities capability on arg }
  | .diagnostics switch => .ok { g with diagnostics := g.diagnostics ++ [switch] }
  | .sourceFile =>
    if hasSourceSuffix arg then .ok { g with sources := g.sources ++ [arg] } else .error (.invalidFilename arg)
  | .unknown => .error (.invalidOption arg)

/-- The chosen dialect. -/
def chosenDialect (g : Gathered) : Dialect := (g.dialect.map (·.1)).getD default

/-- Applies the qualifier, which only the dialects of the report have. -/
def qualify (g : Gathered) (o : Options) : Except OptionsError Options :=
  match g.qualifier with
  | none => .ok o
  | some (qualifier, arg) =>
    if o.dialect = .ext then .error (.conflict ((g.dialect.map (·.2)).getD "--ext") arg)
    else
      match qualifier with
      | .safer => .ok o.makeSafer
      | .compliant => .ok { o with compliant := true }

/-- Applies the limit to a sole product. -/
def limit (g : Gathered) (o : Options) : Options :=
  match g.sole with
  | none => o
  | some (.syntaxCheck, _) => { o with products := .none, syntaxOnly := true }
  | some (.product product, _) => { o with products := .only product, syntaxOnly := false }

/-- Applies everything but the dialect and its qualifier. -/
def apply (g : Gathered) (o : Options) : Options :=
  let o := { o with capabilities := g.capabilities.foldl (fun c t => c.set t.subject t.on) o.capabilities }
  let o := g.limit o
  { o with
    products := g.products.foldl (fun p t => p.set t.subject t.on) o.products
    identifiers := (g.identifiers.map (·.1)).getD o.identifiers
    comments := (g.comments.map (·.1)).getD o.comments
    diagnostics := g.diagnostics.foldl DiagnosticOptions.turnOn o.diagnostics }

/-- The request and the options that the arguments amount to. -/
def finish (g : Gathered) : Except OptionsError Invocation := do
  let o ← g.qualify (.ofDialect g.chosenDialect)
  return ⟨match g.info with
    | some request => .info request
    | none => .compile g.sources, g.apply o⟩

end Gathered

/-- Resolves a command line. -/
def Invocation.ofArguments (args : List String) : Except OptionsError Invocation := do
  (← args.foldlM Gathered.accept {}).finish

namespace Options

/-- Resolves arguments that may only be options: names of source files and requests for information are refused. -/
def ofArguments (args : List String) : Except OptionsError Options :=
  let isOption := fun arg =>
    match Argument.classify arg with
    | .sourceFile | .info _ => false
    | _ => true
  match args.find? (!isOption ·) with
  | some arg => .error (.invalidArgument arg)
  | none => do return (← Invocation.ofArguments args).options

end Options

end Modula
