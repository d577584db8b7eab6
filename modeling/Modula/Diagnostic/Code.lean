/-!
# Diagnostic codes

A code names one kind of problem. Its written form is a letter for the severity, two digits for the category and two for
the number within it, so severity and category are fixed by the code. The category is also the stage that finds the
problem: resolving options, scanning symbols, parsing, or comparing names.
-/

set_option autoImplicit false

namespace Modula

/-- How serious a diagnostic is. -/
inductive Severity where
  | error
  | warning
deriving DecidableEq, Inhabited, Repr

namespace Severity

/-- The word that messages start with. -/
def text : Severity → String
  | .error => "error"
  | .warning => "warning"

/-- Whether this is the severity of an error. -/
def isError (s : Severity) : Bool := s == .error

end Severity

/-- The stage that a code belongs to. -/
inductive Category where
  | option
  | lexical
  | syntactic
  | semantic
  | unknown
deriving DecidableEq, Repr

/-- A category in words. -/
def Category.description : Category → String
  | .option => "option error"
  | .lexical => "lexical error"
  | .syntactic => "syntax error"
  | .semantic => "semantic error"
  | .unknown => "unknown"

/-- A kind of problem. -/
inductive Code where
  | unknown
  | invalidOption
  | invalidArgument
  | missingFilename
  | invalidFilename
  | fileNotFound
  | conflictingOptions
  | disabledSection
  | invalidCharacter
  | unclosedComment
  | newlineInString
  | unclosedString
  | invalidEscape
  | unclosedPragma
  | missingSuffix
  | missingExponent
  | identTooLong
  | commentTooDeep
  | unexpectedToken
  | semicolonAfterFields
  | emptyFields
  | semicolonAfterParameters
  | semicolonAfterStatements
  | emptyStatements
  | closingIdentMismatch
deriving DecidableEq, Inhabited, Repr

namespace Code

/-- Every code that stands for a problem, by category. -/
def all : List Code :=
  [.invalidOption, .invalidArgument, .missingFilename, .invalidFilename, .fileNotFound, .conflictingOptions,
   .disabledSection, .invalidCharacter, .unclosedComment, .newlineInString, .unclosedString, .invalidEscape,
   .unclosedPragma, .missingSuffix, .missingExponent, .identTooLong, .commentTooDeep, .unexpectedToken,
   .semicolonAfterFields, .emptyFields, .semicolonAfterParameters, .semicolonAfterStatements, .emptyStatements,
   .closingIdentMismatch]

/-- The written form of a code. -/
def text : Code → String
  | .unknown => "E0000"
  | .invalidOption => "E0001"
  | .invalidArgument => "E0002"
  | .missingFilename => "E0003"
  | .invalidFilename => "E0004"
  | .fileNotFound => "E0005"
  | .conflictingOptions => "E0006"
  | .disabledSection => "W0101"
  | .invalidCharacter => "E0102"
  | .unclosedComment => "E0103"
  | .newlineInString => "E0104"
  | .unclosedString => "E0105"
  | .invalidEscape => "E0106"
  | .unclosedPragma => "E0107"
  | .missingSuffix => "E0108"
  | .missingExponent => "E0109"
  | .identTooLong => "E0110"
  | .commentTooDeep => "E0111"
  | .unexpectedToken => "E0201"
  | .semicolonAfterFields => "W0201"
  | .emptyFields => "W0202"
  | .semicolonAfterParameters => "W0203"
  | .semicolonAfterStatements => "W0204"
  | .emptyStatements => "W0205"
  | .closingIdentMismatch => "E0301"

/-- The code with this written form. -/
def ofText? (s : String) : Option Code := (unknown :: all).find? (·.text == s)

/-- All codes but the unknown one stand for a problem. -/
def isValid (c : Code) : Bool := c != .unknown

/-- Whether problems of this kind leave the input acceptable. -/
def isWarning : Code → Bool
  | .disabledSection | .semicolonAfterFields | .emptyFields | .semicolonAfterParameters
  | .semicolonAfterStatements | .emptyStatements => true
  | _ => false

/-- Whether problems of this kind make the input unacceptable; the unknown code is neither warning nor error. -/
def isError (c : Code) : Bool := c.isValid && !c.isWarning

/-- The severity of a code. -/
def severity (c : Code) : Severity := if c.isWarning then .warning else .error

/-- The stage that reports a code. -/
def category : Code → Category
  | .unknown => .unknown
  | .invalidOption | .invalidArgument | .missingFilename | .invalidFilename | .fileNotFound
  | .conflictingOptions => .option
  | .disabledSection | .invalidCharacter | .unclosedComment | .newlineInString | .unclosedString | .invalidEscape
  | .unclosedPragma | .missingSuffix | .missingExponent | .identTooLong | .commentTooDeep => .lexical
  | .unexpectedToken | .semicolonAfterFields | .emptyFields | .semicolonAfterParameters
  | .semicolonAfterStatements | .emptyStatements => .syntactic
  | .closingIdentMismatch => .semantic

/-- What a code means; the unknown code has no meaning to show. -/
def message? : Code → Option String
  | .unknown => none
  | .invalidOption => some "invalid option"
  | .invalidArgument => some "invalid argument"
  | .missingFilename => some "missing filename"
  | .invalidFilename => some "invalid filename"
  | .fileNotFound => some "input file not found"
  | .conflictingOptions => some "conflicting options"
  | .disabledSection => some "disabled code section skipped"
  | .invalidCharacter => some "invalid input character"
  | .unclosedComment => some "end of file in block comment"
  | .newlineInString => some "new line in string literal"
  | .unclosedString => some "end of file in string literal"
  | .invalidEscape => some "invalid escape sequence"
  | .unclosedPragma => some "end of file in pragma"
  | .missingSuffix => some "missing suffix in number literal"
  | .missingExponent => some "missing exponent in real number literal"
  | .identTooLong => some "identifier exceeds maximum length"
  | .commentTooDeep => some "maximum comment nesting level exceeded"
  | .unexpectedToken => some "unexpected token"
  | .semicolonAfterFields => some "semicolon after field list sequence"
  | .emptyFields => some "empty field list sequence"
  | .semicolonAfterParameters => some "semicolon after formal parameter list"
  | .semicolonAfterStatements => some "semicolon after statement sequence"
  | .emptyStatements => some "empty statement sequence"
  | .closingIdentMismatch => some "closing identifier does not match"

end Code

end Modula
