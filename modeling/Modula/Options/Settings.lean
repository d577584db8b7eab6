import Modula.Options.Basic

/-!
# Settings

The settings are the options as a list of names and values in a fixed order. They are shown in two forms: as terms,
which the tree of a unit records, and as a table with one line for each setting.
-/

set_option autoImplicit false

namespace Modula.Options

/-- The value of a switch. -/
def onOff (on : Bool) : String := if on then "on" else "off"

/-- The names and values of all settings, in the order in which they are shown. -/
def settings (o : Options) : List (String × String) :=
  [("dialect", o.dialect.text),
   ("safer", onOff o.safer),
   ("compliant", onOff o.compliant),
   ("synonyms", onOff o.capabilities.synonyms),
   ("octal-literals", onOff o.capabilities.octalLiterals),
   ("explicit-cast", onOff o.capabilities.explicitCast),
   ("coroutines", onOff o.capabilities.coroutines),
   ("variant-records", onOff o.capabilities.variantRecords),
   ("local-modules", onOff o.capabilities.localModules),
   ("lowline-identifiers", onOff o.capabilities.lowlineIdentifiers),
   ("to-do-statement", onOff o.capabilities.toDoStatement),
   ("const-parameters", onOff o.capabilities.constParameters),
   ("syntax-only", onOff o.syntaxOnly),
   ("ast", onOff o.products.ast),
   ("graph", onOff o.products.graph),
   ("xlat", onOff o.products.xlat),
   ("obj", onOff o.products.obj),
   ("identifiers", if o.identifiers = .verbatim then "verbatim" else "transliterate"),
   ("comments", if o.comments = .preserve then "preserve" else "strip"),
   ("verbose", onOff o.diagnostics.verbose),
   ("errant-semicolons", onOff o.diagnostics.errantSemicolons)]

/-- The settings as terms, each a name and a value joined by an equals sign. -/
def settingTerms (o : Options) : List String := o.settings.map fun (name, value) => name ++ "=" ++ value

/-- A name filled up with blanks to the width of the table's first column. -/
def padded (name : String) : String := name ++ String.ofList (List.replicate (20 - name.length) ' ')

/-- The settings as a table, one line for each. -/
def settingTable (o : Options) : String :=
  String.join (o.settings.map fun (name, value) => padded name ++ " " ++ value ++ "\n")

end Modula.Options
