import Modula.Diagnostic.Basic
import Modula.Symbol.Basic

/-!
# Strings and pragmas

These symbols run from an opening delimiter to a closing one. A string ends at the quote that opened it and may not
reach the end of its line; in the extended dialect a backslash starts an escape sequence, and one that escapes nothing
known makes the string malformed without ending it. A pragma may run over several lines.
-/

set_option autoImplicit false

namespace Modula.Scan

/-- A delimited symbol as far as it reaches, with what is wrong in it. -/
structure Delimited where
  token : Token
  spelling : List Char
  faults : List Diagnostic

/-- Whether a character may follow the backslash of an escape sequence. -/
def isEscapable (c : Char) : Bool := ['n', 't', '\\', '\'', '"', '0'].contains c

/-- Scans a string that starts at `start`, from a later position on. The characters read before and the escape sequences
reported before are given last one first. -/
def stringFrom (quote : Char) (escapes : Bool) (start : Position) (p : Position) (before : List Char)
    (bad : List Diagnostic) : List Char → Delimited
  | [] => ⟨.malformedString, before.reverse, bad.reverse ++ [.atPosition .unclosedString start]⟩
  | c :: rest =>
    if c = quote then ⟨if bad.isEmpty then .string else .malformedString, (c :: before).reverse, bad.reverse⟩
    else if c = '\n' then
      ⟨.malformedString, before.reverse, bad.reverse ++ [.atPosition .newlineInString start]⟩
    else if c = '\\' ∧ escapes then
      match rest with
      | [] => stringFrom quote escapes start (p.after c) (c :: before) bad []
      | e :: rest' =>
        if isEscapable e then stringFrom quote escapes start ((p.after c).after e) (e :: c :: before) bad rest'
        else
          let bad := if e = '\n' then bad else .ofCharacter .invalidEscape p e :: bad
          stringFrom quote escapes start (p.after c) (c :: before) bad (e :: rest')
    else stringFrom quote escapes start (p.after c) (c :: before) bad rest

/-- A string that starts at a position with the quote given. -/
def string (rules : ScanRules) (p : Position) (quote : Char) (rest : List Char) : Delimited :=
  stringFrom quote rules.escapes p (p.after quote) [quote] [] rest

/-- Scans a pragma that starts at `start`, given the characters read before, last one first. -/
def pragmaFrom (start : Position) (before : List Char) : List Char → Delimited
  | '*' :: '>' :: _ => ⟨.pragma, ('>' :: '*' :: before).reverse, []⟩
  | c :: rest => pragmaFrom start (c :: before) rest
  | [] => ⟨.pragma, before.reverse, [.atPosition .unclosedPragma start]⟩

/-- A pragma that starts at a position, given the text after its opening. -/
def pragma (p : Position) (rest : List Char) : Delimited := pragmaFrom p ['*', '<'] rest

end Modula.Scan
