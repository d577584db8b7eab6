import Modula.Parser.State

/-!
# Scripts

The body of a production is a script: actions in sequence, loops, and calls of the rules that may contain themselves.
A script is data, and running it is one function, so a law that holds of every action holds of every parse. A run is
bounded: loops and nested calls go on no longer than there are symbols in the text, and a run that reaches a bound
says so.
-/

set_option autoImplicit false

namespace Modula

/-- A production that may contain itself. -/
inductive Rule where
  | expression
  | typeExpression
  | variantFields
  | statementSequence
  | block
deriving DecidableEq, Repr

/-- What a production does, with the type of what it yields. -/
inductive Script : Type → Type 1 where
  | pure {α : Type} (a : α) : Script α
  | bind {α β : Type} (first : Script α) (next : α → Script β) : Script β
  | act {α : Type} (action : Action α) : Script α
  | call (rule : Rule) : Script Node
  | loop {α : Type} (init : α) (step : α → Script (ForInStep α)) : Script α

namespace Script

instance : Monad Script where
  pure := .pure
  bind := .bind

/-- Repeats a step until it is done, at most so many times. -/
def iterate {α : Type} (step : α → ParserState → ForInStep α × ParserState) : Nat → α → ParserState → α × ParserState
  | 0, a, s => (a, s.exhaust)
  | n + 1, a, s =>
    match step a s with
    | (.done a, s) => (a, s)
    | (.yield a, s) => iterate step n a s

/-- Runs a script, given how rules are called. -/
def run (callRule : Rule → ParserState → Node × ParserState) {α : Type} : Script α → ParserState → α × ParserState
  | .pure a, s => (a, s)
  | .bind first next, s =>
    let (a, s) := first.run callRule s
    (next a).run callRule s
  | .act action, s => action.perform s
  | .call rule, s => callRule rule s
  | .loop init step, s => iterate (fun a s => (step a).run callRule s) (s.reader.total + 1) init s

end Script

/-- Runs a rule, given the scripts of all rules and how deep calls may nest. -/
def Rule.run (body : Rule → Script Node) : Nat → Rule → ParserState → Node × ParserState
  | 0, _, s => (.empty, s.exhaust)
  | depth + 1, rule, s => (body rule).run (Rule.run body depth) s

end Modula
