import Modula.Grammar.First
import Modula.Grammar.Follow
import Modula.Symbol.Reader

/-!
# The state of a parse

The parser sees the symbols of a reader, without pragmas, and remembers the symbol it accepted last. Its actions are the
only things it can do to this state: look at the next token, accept the next symbol, report a problem, log, and build a
node. A node whose parts do not fit the schema is replaced by the empty node; if no error has been reported to explain
that, the loss is counted.
-/

set_option autoImplicit false

namespace Modula

namespace SymbolReader

/-- Reads on, at most so many symbols, until the next one is no pragma. -/
def skipPragmasWithin : Nat → SymbolReader → SymbolReader
  | 0, r => r
  | n + 1, r => if r.next.token = .pragma then skipPragmasWithin n r.read else r

/-- Reads on until the next symbol is no pragma. -/
def skipPragmas (r : SymbolReader) : SymbolReader := skipPragmasWithin r.total r

end SymbolReader

/-- The state of a parse. -/
structure ParserState where
  reader : SymbolReader
  /-- The symbol accepted last. -/
  accepted : Symbol
  /-- The number of nodes dropped while no error had been reported. -/
  dropped : Nat
  /-- Whether errant semicolons and empty sequences are accepted without a warning. -/
  tolerant : Bool
  /-- Whether productions and skipped symbols are logged. -/
  logsProductions : Bool
  /-- Whether a bound on loops or nesting was ever reached. -/
  exhausted : Bool

namespace ParserState

/-- The state before the first symbol is accepted. -/
def start (o : Options) (r : SymbolReader) : ParserState :=
  { reader := r, accepted := ⟨.unknown, "", ⟨0, 0⟩⟩, dropped := 0, tolerant := o.diagnostics.errantSemicolons,
    logsProductions := o.diagnostics.parserDebug, exhausted := false }

/-- The state with a bound reached. -/
def exhaust (s : ParserState) : ParserState := { s with exhausted := true }

/-- The state with the pragmas before the next symbol skipped. -/
def settle (s : ParserState) : ParserState := { s with reader := s.reader.skipPragmas }

/-- The state with a diagnostic reported. -/
def report (s : ParserState) (d : Diagnostic) : ParserState := { s with reader := s.reader.report d }

/-- The state with an event logged. -/
def log (s : ParserState) (e : Event) : ParserState := { s with reader := s.reader.log e }

/-- The state with a warning at a position, unless such warnings are not wanted. -/
def warn (s : ParserState) (code : Code) (p : Position) : ParserState :=
  if s.tolerant then s else s.report (.atPosition code p)

end ParserState

/-- A single step of the parser, with the type of what it yields. -/
inductive Action : Type → Type where
  /-- Looks at the next token; a malformed literal is taken as well-formed. -/
  | lookahead : Action Token
  /-- Looks whether a point comes next with an identifier right after it. -/
  | qualifies : Action Bool
  /-- Accepts the next symbol and yields its lexeme. -/
  | accept : Action String
  /-- Notes that a production is entered. -/
  | enter (p : Production) : Action Unit
  /-- Reports the next symbol as unexpected. -/
  | reject (expected : Expected) : Action Unit
  /-- Warns at the next symbol. -/
  | warnNext (code : Code) : Action Unit
  /-- Warns at the symbol accepted last. -/
  | warnAccepted (code : Code) : Action Unit
  /-- Reports the identifier accepted last as a wrong closing identifier. -/
  | rejectClosing (closing : String) : Action Unit
  /-- Notes that so many symbols were skipped. -/
  | skipped (n : Nat) : Action Unit
  /-- Yields a node, or the empty node if it could not be built. -/
  | build (node : Except NodeError Node) : Action Node

namespace Action

/-- What an action yields and does to the state. -/
def perform {α : Type} : Action α → ParserState → α × ParserState
  | .lookahead, s =>
    let s := s.settle
    (s.reader.next.token.wellFormed, s)
  | .qualifies, s =>
    let s := s.settle
    if s.reader.next.token = .dot then
      let (second, r) := s.reader.peekSecond
      (second.token = .ident, { s with reader := r })
    else (false, s)
  | .accept, s =>
    let r := s.reader.read
    (r.current.lexeme, { s with reader := r, accepted := r.current }.settle)
  | .enter p, s =>
    if s.logsProductions then
      let s := s.settle
      ((), s.log (.entered p s.reader.next.position s.reader.next.token.wellFormed))
    else ((), s)
  | .reject expected, s =>
    let found := s.reader.next
    ((), s.report
      { code := .unexpectedToken, position := some found.position, lexeme := some found.lexeme,
        token := some found.token, expected := some expected })
  | .warnNext code, s => ((), s.warn code s.reader.next.position)
  | .warnAccepted code, s => ((), s.warn code s.accepted.position)
  | .rejectClosing closing, s => ((), s.report (.ofLexeme .closingIdentMismatch s.accepted.position closing))
  | .skipped n, s =>
    ((), if s.logsProductions ∧ 0 < n then s.log (.resynchronized n s.reader.next.position) else s)
  | .build (.ok node), s => (node, s)
  | .build (.error e), s =>
    (.empty,
      if s.reader.reporter.errorCount = 0 then
        { s with dropped := s.dropped + 1 }.log (.dropped s.reader.filename s.accepted.position.line e)
      else if s.logsProductions then s.log (.degraded e)
      else s)

end Action

end Modula
