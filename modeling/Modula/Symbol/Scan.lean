import Modula.Source.Basic
import Modula.Symbol.Delimited
import Modula.Symbol.Skipped
import Modula.Symbol.Word

/-!
# Scanning

Scanning reads the next symbol of a source. It skips blanks, comments and disabled sections, takes the longest symbol
that the next characters spell, and never fails: a literal that breaks a rule becomes a malformed one, a character
that starts no symbol becomes an invalid symbol, and each fault is listed with the symbol. At the end of the text
every scan yields the end of the input.
-/

set_option autoImplicit false

namespace Modula

/-- A symbol with the faults found while it was scanned, in the order in which they were found. -/
structure Scanned where
  symbol : Symbol
  faults : List Diagnostic
deriving DecidableEq

namespace Scan

/-- Whether a character only separates symbols. -/
def isLayout (c : Char) : Bool := c == ' ' || c == '\t' || c == '\n'

/-- The symbol spelled by the next characters, which start at a position. -/
def symbolAt (rules : ScanRules) (p : Position) (c : Char) (rest : List Char) : Delimited :=
  if c = '\'' ∨ c = '"' then string rules p c rest
  else if c = '<' ∧ rest.head? = some '*' then pragma p rest.tail
  else
    let spelled :=
      if c.isAlpha then word rules (c :: rest)
      else if c.isDigit then number rules (c :: rest)
      else special rules (c :: rest)
    ⟨spelled.1, spelled.2, faults p spelled⟩

/-- Scans the next symbol in at most so many steps, one for each comment and disabled section before it. The faults
found before are given last one first. -/
def symbolWithin (rules : ScanRules) : Nat → Source → List Diagnostic → Scanned × Source
  | 0, s, before => (⟨.endOfInput s.position, before.reverse⟩, s)
  | steps + 1, s, before =>
    let s := s.advance (s.rest.takeWhile isLayout).length
    match s.rest with
    | [] => (⟨.endOfInput s.position, before.reverse⟩, s)
    | c :: rest =>
      if c = '(' ∧ rest.head? = some '*' then
        let skipped := comment s.position rest.tail
        symbolWithin rules steps (s.advance skipped.length) (skipped.faults.reverse ++ before)
      else if c = '?' ∧ rest.head? = some '<' ∧ s.position.column = 1 then
        let skipped := disabledSection s.position.line (c :: rest)
        symbolWithin rules steps (s.advance skipped.length) (skipped.faults.reverse ++ before)
      else
        let found := symbolAt rules s.position c rest
        (⟨⟨found.token, String.ofList found.spelling, s.position⟩, before.reverse ++ found.faults⟩,
          s.advance found.spelling.length)

/-- Scans the next symbol. -/
def symbol (rules : ScanRules) (s : Source) : Scanned × Source := symbolWithin rules (s.length + 1) s []

/-- Scans at most so many symbols up to the end of the input, after those scanned before, last one first. -/
def symbolsWithin (rules : ScanRules) : Nat → Source → List Scanned → List Scanned
  | 0, _, before => before.reverse
  | steps + 1, s, before =>
    let (scanned, s) := symbol rules s
    if scanned.symbol.token = .eof then (scanned :: before).reverse
    else symbolsWithin rules steps s (scanned :: before)

/-- All symbols of a source, the end of the input last. -/
def symbols (rules : ScanRules) (s : Source) : List Scanned := symbolsWithin rules (s.length + 1) s []

end Scan

end Modula
