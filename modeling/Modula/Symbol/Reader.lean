import Modula.Diagnostic.Reporter
import Modula.Event
import Modula.Symbol.Scan

/-!
# Reading symbols ahead

A reader goes through the scanned symbols of a text with one or two of them in view beyond the current one. A symbol
comes into view when it is needed, and only then are its faults reported, so that diagnostics of scanning and of
parsing appear in the order in which a reader of the text would meet them. After the end of the input every further
symbol is that end again, and reports nothing.
-/

set_option autoImplicit false

namespace Modula

/-- The symbols in view and those still to come, with what has been reported. -/
structure SymbolReader where
  filename : String
  /-- The number of symbols of the text, the end of the input included. -/
  total : Nat
  /-- The symbol read last. -/
  current : Symbol
  /-- The symbol to be read next. -/
  next : Symbol
  /-- The symbol after the next one, if it has come into view. -/
  second : Option Symbol
  /-- The symbols that have not come into view. -/
  unseen : List Scanned
  /-- The end of the input. -/
  last : Symbol
  /-- Whether the symbol that came into view last has errors of its own. -/
  faulty : Bool
  reporter : Reporter
  /-- Whether each symbol that comes into view is logged. -/
  logsSymbols : Bool
  events : Array Event

namespace SymbolReader

/-- Adds an event to the log. -/
def log (r : SymbolReader) (e : Event) : SymbolReader := { r with events := r.events.push e }

/-- Reports a diagnostic. -/
def report (r : SymbolReader) (d : Diagnostic) : SymbolReader := { r with reporter := r.reporter.emit d }

/-- Notes that a symbol has come into view: its faults are reported, then it is logged if that is asked for. -/
def reveal (r : SymbolReader) (s : Scanned) : SymbolReader :=
  let r := { r with reporter := r.reporter.emitAll s.faults, faulty := s.faults.any (·.isError) }
  if r.logsSymbols then r.log (.scanned s.symbol) else r

/-- Brings the first unseen symbol into view. -/
def scan (r : SymbolReader) : Symbol × SymbolReader :=
  match r.unseen with
  | [] => (r.last, r.reveal ⟨r.last, []⟩)
  | s :: unseen => (s.symbol, { r with unseen := unseen }.reveal s)

/-- A reader before the first symbol, which is in view. -/
def start (filename : String) (symbols : List Scanned) (reporter : Reporter) (logsSymbols : Bool) : SymbolReader :=
  let r : SymbolReader :=
    { filename := filename, total := symbols.length, current := .initial, next := .initial, second := none,
      unseen := symbols, last := (symbols.getLast?.map (·.symbol)).getD .initial, faulty := false,
      reporter := reporter, logsSymbols := logsSymbols, events := #[] }
  let (s, r) := r.scan
  { r with next := s }

/-- A reader of a source under the options; diagnostics show source lines in verbose mode. -/
def ofSource (o : Options) (s : Source) : SymbolReader :=
  start s.filename (Scan.symbols o.scanRules s)
    { lines := if o.diagnostics.verbose then some s.lines else none } o.diagnostics.lexerDebug

/-- Reads the next symbol. -/
def read (r : SymbolReader) : SymbolReader :=
  match r.second with
  | some s => { r with current := r.next, next := s, second := none }
  | none =>
    let (s, r) := r.scan
    { r with current := r.next, next := s }

/-- Brings the symbol after the next one into view. -/
def peekSecond (r : SymbolReader) : Symbol × SymbolReader :=
  match r.second with
  | some s => (s, r)
  | none =>
    let (s, r) := r.scan
    (s, { r with second := some s })

end SymbolReader

end Modula
