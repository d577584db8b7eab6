import Modula.Grammar.Production
import Modula.Symbol.Basic
import Modula.Text.Quoted
import Modula.Tree.Node

/-!
# Events

An event is something that a run logs: what the options came to, each symbol scanned and each production entered if that
is asked for, symbols skipped after an error, nodes that were dropped, and the outcome of a parse.
-/

set_option autoImplicit false

namespace Modula

/-- How much an event matters. -/
inductive Level where
  | trace
  | debug
  | error
deriving DecidableEq, Repr

/-- A level in a log. -/
def Level.text : Level → String
  | .trace => "TRACE"
  | .debug => "DEBUG"
  | .error => "ERROR"

/-- Something that a run logs. -/
inductive Event where
  | resolved (options : Options)
  | scanned (symbol : Symbol)
  | entered (production : Production) (position : Position) (lookahead : Token)
  | resynchronized (skipped : Nat) (position : Position)
  /-- A node was dropped although no error had been reported. -/
  | dropped (filename : String) (line : Nat) (error : NodeError)
  /-- A node was dropped after an error had been reported. -/
  | degraded (error : NodeError)
  | rootRefused (error : NodeError)
  | finished (filename : String) (errors : Nat) (warnings : Nat) (lost : Nat)
  | batch (files : Nat)

namespace Event

/-- How much an event matters. -/
def level : Event → Level
  | .scanned _ | .entered _ _ _ => .trace
  | .dropped _ _ _ => .error
  | _ => .debug

/-- The numbers of a position with a colon between them. -/
def place (p : Position) : String := toString p.line ++ ":" ++ toString p.column

/-- An event in words. -/
def message : Event → String
  | .resolved o =>
    "[OPTIONS] dialect=" ++ o.dialect.text ++ " safer=" ++ toString o.safer ++ " compliant=" ++ toString o.compliant
  | .scanned s => "[LEXER] " ++ place s.position ++ " " ++ s.token.tag ++ " " ++ Text.quoted s.lexeme
  | .entered production p t => "[PARSER] " ++ production.name ++ " at " ++ place p ++ " lookahead " ++ t.name
  | .resynchronized skipped p =>
    "[PARSER] resynchronized after " ++ toString skipped ++ " symbols at " ++ place p
  | .dropped filename line e =>
    "[PARSER] " ++ filename ++ ":" ++ toString line ++ ": node dropped without a reported error: " ++ e.message
  | .degraded e => "[PARSER] degraded node: " ++ e.message
  | .rootRefused e => "[PARSER] root not built: " ++ e.message
  | .finished filename errors warnings lost =>
    "[PARSER] " ++ filename ++ ": " ++ toString errors ++ " error(s), " ++ toString warnings ++ " warning(s), " ++
      toString lost ++ " unexplained degradation(s)"
  | .batch files => "[BATCH] parsing " ++ toString files ++ " file(s)"

/-- The line that a log has for an event. -/
def text (e : Event) : String := e.level.text ++ " " ++ e.message

end Event

end Modula
