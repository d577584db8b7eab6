import Modula.Diagnostic.Code
import Modula.Text.Position
import Modula.Text.Quoted
import Modula.Token.Set

/-!
# Diagnostics

A diagnostic is a code together with what was known where the problem was found: a position or a range of lines, the
offending character, lexeme or token, what was expected instead, and the source line. Its text has the severity, the
code and the place in front, then the message, then the expected tokens and the source line on lines of their own.
-/

set_option autoImplicit false

namespace Modula

/-- What was expected in place of an offending token. -/
inductive Expected where
  | token (token : Token)
  | set (tokens : TokenSet)
deriving DecidableEq

namespace Expected

/-- A set of expected tokens; a set of one token is that token. -/
def ofSet (s : TokenSet) : Expected :=
  match s.toList with
  | [t] => .token t
  | _ => .set s

/-- The expected tokens, in declaration order. -/
def tokens : Expected → List Token
  | .token t => [t]
  | .set s => s.toList

/-- Names in a row: commas between them, and "or" before the last. -/
def joined : List String → String
  | [] => "nothing"
  | [name] => name
  | names => String.intercalate ", " names.dropLast ++ " or " ++ names.getLastD ""

/-- The expected tokens in words. -/
def text (e : Expected) : String := joined (e.tokens.map Token.name)

end Expected

/-- A reported problem. -/
structure Diagnostic where
  code : Code
  position : Option Position := none
  lines : Option LineRange := none
  character : Option Char := none
  lexeme : Option String := none
  token : Option Token := none
  expected : Option Expected := none
  sourceLine : Option String := none
deriving DecidableEq

namespace Diagnostic

/-- A problem of which nothing but the position is known. -/
def atPosition (code : Code) (p : Position) : Diagnostic := { code := code, position := some p }

/-- A problem with a lexeme that starts at a position. -/
def ofLexeme (code : Code) (p : Position) (lexeme : String) : Diagnostic :=
  { code := code, position := some p, lexeme := some lexeme }

/-- A problem with a character at a position. -/
def ofCharacter (code : Code) (p : Position) (character : Char) : Diagnostic :=
  { code := code, position := some p, character := some character }

/-- The severity of the code. -/
def severity (d : Diagnostic) : Severity := d.code.severity

/-- Whether the diagnostic is an error. -/
def isError (d : Diagnostic) : Bool := d.code.isError

/-- The expected tokens, in declaration order. -/
def expectedTokens (d : Diagnostic) : List Token := (d.expected.map Expected.tokens).getD []

/-- A lexeme between quotes, with a blank in front. -/
def lexemeText : Option String → String
  | none => ""
  | some lexeme => " \"" ++ lexeme ++ "\""

/-- The message: the offending token if one is known, otherwise the meaning of the code and what offended. -/
def message (d : Diagnostic) : String :=
  match d.token with
  | some t =>
    "unexpected " ++ t.category ++ (if t.name = t.category then "" else " " ++ t.name) ++ lexemeText d.lexeme ++
      " found"
  | none =>
    d.code.message?.getD "unknown diagnostic" ++
      (match d.character with
        | none => ""
        | some c => " '" ++ Text.escapedChar c ++ "'") ++
      lexemeText d.lexeme

/-- The place of the problem, with a position before a range of lines. -/
def placeText (d : Diagnostic) : String :=
  match d.position, d.lines with
  | some p, _ => " at " ++ p.text
  | none, some r => " at " ++ r.text
  | none, none => ""

/-- The text of a diagnostic. -/
def text (d : Diagnostic) : String :=
  d.severity.text ++ " " ++ d.code.text ++ d.placeText ++ ": " ++ d.message ++
    (match d.expected with
      | none => ""
      | some e => "\n  expected " ++ e.text) ++
    (match d.sourceLine with
      | none => ""
      | some line => "\n  | " ++ line)

end Diagnostic

end Modula
