import Modula.Diagnostic.Basic
import Modula.Symbol.Basic

/-!
# Words, numbers and special symbols

These symbols are decided by their characters alone. A word is a run of letters, digits and, under an option,
lowlines. A number is a run of digits in base sixteen with what follows it: the suffix `H`, a fraction and an
exponent, or the suffix `B` or `C` that ended the run. Special symbols have one or two characters, and the longer one
wins.
-/

set_option autoImplicit false

namespace Modula.Scan

/-- A token with the characters that spell it. -/
abbrev Spelled : Type := Token × List Char

/-- The greatest length of an identifier. -/
def maxIdentLength : Nat := 32

/-- Whether a character may stand in a word. -/
def isWordChar (rules : ScanRules) (c : Char) : Bool := c.isAlphanum || (c == '_' && rules.lowlines)

/-- A reserved word or an identifier. -/
def word (rules : ScanRules) (cs : List Char) : Spelled :=
  let spelling := cs.takeWhile (isWordChar rules)
  ((Token.ofReservedWord? (String.ofList spelling)).getD .ident, spelling)

/-- Whether a character is a digit in base sixteen; letters count in upper case only. -/
def isHexDigit (c : Char) : Bool := c.isDigit || (decide ('A' ≤ c) && decide (c ≤ 'F'))

/-- Whether a character is a digit in base eight. -/
def isOctalDigit (c : Char) : Bool := decide ('0' ≤ c) && decide (c ≤ '7')

/-- The exponent of a real number after its `E`: an optional sign and at least one digit. -/
def exponent (cs : List Char) : Spelled :=
  let sign := cs.take (if cs.head? = some '+' ∨ cs.head? = some '-' then 1 else 0)
  let digits := (cs.drop sign.length).takeWhile Char.isDigit
  (if digits.isEmpty then .malformedReal else .real, sign ++ digits)

/-- The fraction of a real number after its point, and the exponent if there is one. -/
def fraction (cs : List Char) : Spelled :=
  let digits := cs.takeWhile Char.isDigit
  match cs.drop digits.length with
  | 'E' :: rest =>
    let (token, spelling) := exponent rest
    (token, digits ++ 'E' :: spelling)
  | _ => (.real, digits)

/-- The token of a run of digits that is neither decimal nor followed by `H`: its last digit has to be a suffix, and the
others octal. -/
def suffixed (rules : ScanRules) (digits : List Char) : Token :=
  let body := digits.dropLast
  if rules.octalLiterals && !body.isEmpty && body.all isOctalDigit then
    match digits.getLast? with
    | some 'B' => .integer
    | some 'C' => .char
    | _ => .malformedInteger
  else .malformedInteger

/-- A number. -/
def number (rules : ScanRules) (cs : List Char) : Spelled :=
  let digits := cs.takeWhile isHexDigit
  match cs.drop digits.length with
  | 'H' :: _ => (.integer, digits ++ ['H'])
  | rest =>
    if digits.all Char.isDigit then
      match rest with
      | '.' :: '.' :: _ => (.integer, digits)
      | '.' :: rest =>
        let (token, spelling) := fraction rest
        (token, digits ++ '.' :: spelling)
      | _ => (.integer, digits)
    else (suffixed rules digits, digits)

/-- A special symbol, or a character that starts no symbol. -/
def special (rules : ScanRules) : List Char → Spelled
  | ':' :: '=' :: _ => (.assign, [':', '='])
  | '.' :: '.' :: _ => (.dotDot, ['.', '.'])
  | '<' :: '=' :: _ => (.lessEqual, ['<', '='])
  | '>' :: '=' :: _ => (.greaterEqual, ['>', '='])
  | '<' :: '>' :: _ => if rules.synonyms then (.notEqual, ['<', '>']) else (.less, ['<'])
  | '&' :: _ => (if rules.synonyms then .kwAnd else .unknown, ['&'])
  | '~' :: _ => (if rules.synonyms then .kwNot else .unknown, ['~'])
  | '+' :: _ => (.plus, ['+'])
  | '-' :: _ => (.minus, ['-'])
  | '=' :: _ => (.equal, ['='])
  | '#' :: _ => (.notEqual, ['#'])
  | '<' :: _ => (.less, ['<'])
  | '>' :: _ => (.greater, ['>'])
  | '*' :: _ => (.star, ['*'])
  | '/' :: _ => (.slash, ['/'])
  | ',' :: _ => (.comma, [','])
  | '.' :: _ => (.dot, ['.'])
  | ':' :: _ => (.colon, [':'])
  | ';' :: _ => (.semicolon, [';'])
  | '^' :: _ => (.caret, ['^'])
  | '|' :: _ => (.bar, ['|'])
  | '(' :: _ => (.lparen, ['('])
  | ')' :: _ => (.rparen, [')'])
  | '[' :: _ => (.lbracket, ['['])
  | ']' :: _ => (.rbracket, [']'])
  | '{' :: _ => (.lbrace, ['{'])
  | '}' :: _ => (.rbrace, ['}'])
  | cs => (.unknown, cs.take 1)

/-- What is wrong with a word, a number or a special symbol that starts at a position. -/
def faults (p : Position) : Spelled → List Diagnostic
  | (.ident, spelling) =>
    if maxIdentLength < spelling.length then [.ofLexeme .identTooLong p (String.ofList spelling)] else []
  | (.malformedInteger, spelling) => [.ofLexeme .missingSuffix p (String.ofList spelling)]
  | (.malformedReal, spelling) => [.ofLexeme .missingExponent p (String.ofList spelling)]
  | (.unknown, spelling) => spelling.take 1 |>.map (.ofCharacter .invalidCharacter p)
  | _ => []

end Modula.Scan
