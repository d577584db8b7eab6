import Modula.Options.Basic
import Modula.Text.Position
import Modula.Token.Basic

/-!
# Symbols

A symbol is an occurrence of a token in a text: the token, the lexeme that spells it, and the position where it starts.
-/

set_option autoImplicit false

namespace Modula

/-- An occurrence of a token in a text. -/
structure Symbol where
  token : Token
  lexeme : String
  position : Position
deriving DecidableEq

namespace Symbol

/-- What stands for the current symbol before any has been read. -/
def initial : Symbol := ⟨.unknown, "", .start⟩

instance : Inhabited Symbol := ⟨initial⟩

/-- The end of the input at a position. -/
def endOfInput (p : Position) : Symbol := ⟨.eof, "", p⟩

end Symbol

/-- The options that scanning depends on. -/
structure ScanRules where
  /-- Whether a backslash in a string starts an escape sequence. -/
  escapes : Bool
  /-- Whether `&`, `~` and the unequal sign of two characters are synonyms. -/
  synonyms : Bool
  /-- Whether octal numbers and character codes are literals. -/
  octalLiterals : Bool
  /-- Whether identifiers may hold lowlines. -/
  lowlines : Bool
deriving DecidableEq, Repr

/-- What scanning depends on under the options. -/
def Options.scanRules (o : Options) : ScanRules :=
  { escapes := o.dialect = .ext
    synonyms := o.capabilities.synonyms
    octalLiterals := o.capabilities.octalLiterals
    lowlines := o.capabilities.lowlineIdentifiers }

end Modula
