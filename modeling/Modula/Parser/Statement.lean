import Modula.Parser.Expression
import Modula.Parser.Type

/-!
# Statements

Statements stand in sequences with semicolons between them. A statement that follows another one without a semicolon is
reported and then taken as if the semicolon were there.
-/

set_option autoImplicit false

namespace Modula.Script

/-- An assignment, or a procedure call with or without arguments. -/
def assignmentOrProcCall (ctx : Context) : Script Node := do
  enter .assignmentOrProcCall
  let target ← designator ctx
  if ← nextIs .assign then
    skip
    let value ← call .expression
    branch .assignment [target, value]
  else
    let arguments ← if ← starts ctx .actualParameters then actualParameters ctx else pure .empty
    branch .procedureCall [target, arguments]

/-- A return with or without a value. -/
def returnStatement (ctx : Context) : Script Node := do
  enter .returnStatement
  skip
  let value ← if ← starts ctx .expression then call .expression else pure .empty
  branch .returnStatement [value]

/-- Statements under the fields of a record. -/
def withStatement (ctx : Context) : Script Node := do
  enter .withStatement
  let follow := Production.withStatement.follow ctx
  skip
  let record ← designator ctx
  unless ← expect .kwDo follow do return .empty
  let body ← call .statementSequence
  unless ← expect .kwEnd follow do return .empty
  branch .withStatement [record, body]

/-- The statements after `ELSE`, or the empty node if there is no such part. -/
def elsePart : Script Node := do
  unless ← nextIs .kwElse do return .empty
  skip
  call .statementSequence

/-- The alternatives of an if statement after its first; none if one of them lacks its `THEN`. -/
def elsifs (follow : TokenSet) : Script (Option (List Node)) := do
  let branches ← loop (some []) fun branches => do
    unless ← nextIs .kwElsif do return .done branches
    skip
    let condition ← call .expression
    unless ← expect .kwThen follow do return .done none
    let body ← call .statementSequence
    let node ← branch .elsif [condition, body]
    return .yield (branches.map (node :: ·))
  return branches.map List.reverse

/-- Statements under a condition, with alternatives. -/
def ifStatement (ctx : Context) : Script Node := do
  enter .ifStatement
  let follow := Production.ifStatement.follow ctx
  skip
  let condition ← call .expression
  unless ← expect .kwThen follow do return .empty
  let body ← call .statementSequence
  let some alternatives ← elsifs follow | return .empty
  let otherwise ← elsePart
  unless ← expect .kwEnd follow do return .empty
  let alternatives ← list .elsifList alternatives
  branch .ifStatement [condition, body, alternatives, otherwise]

/-- The statements for some values of a selector. -/
def caseBranch (ctx : Context) : Script Node := do
  enter .caseBranch
  let labels ← caseLabelList
  unless ← expect .colon (Production.caseBranch.follow ctx) do return .empty
  let body ← call .statementSequence
  branch .caseBranch [labels, body]

/-- Statements chosen by the value of a selector. -/
def caseStatement (ctx : Context) : Script Node := do
  enter .caseStatement
  let follow := Production.caseStatement.follow ctx
  skip
  let selector ← call .expression
  unless ← expect .kwOf follow do return .empty
  let cases ← barred ctx .caseBranch (caseBranch ctx)
  let otherwise ← elsePart
  unless ← expect .kwEnd follow do return .empty
  let cases ← list .caseList cases
  branch .caseStatement [selector, cases, otherwise]

/-- Statements that are repeated without a condition. -/
def loopStatement (ctx : Context) : Script Node := do
  enter .loopStatement
  skip
  let body ← call .statementSequence
  unless ← expect .kwEnd (Production.loopStatement.follow ctx) do return .empty
  branch .loopStatement [body]

/-- Statements that are repeated while a condition holds. -/
def whileStatement (ctx : Context) : Script Node := do
  enter .whileStatement
  let follow := Production.whileStatement.follow ctx
  skip
  let condition ← call .expression
  unless ← expect .kwDo follow do return .empty
  let body ← call .statementSequence
  unless ← expect .kwEnd follow do return .empty
  branch .whileStatement [condition, body]

/-- Statements that are repeated until a condition holds. -/
def repeatStatement (ctx : Context) : Script Node := do
  enter .repeatStatement
  skip
  let body ← call .statementSequence
  unless ← expect .kwUntil (Production.repeatStatement.follow ctx) do return .empty
  let condition ← call .expression
  branch .repeatStatement [body, condition]

/-- Statements that are repeated for the values of a control variable. -/
def forStatement (ctx : Context) : Script Node := do
  enter .forStatement
  let follow := Production.forStatement.follow ctx
  skip
  let some control ← expectIdent follow | return .empty
  unless ← expect .assign follow do return .empty
  let first ← call .expression
  unless ← expect .kwTo follow do return .empty
  let last ← call .expression
  let step ←
    if ← nextIs .kwBy then do
      skip
      call .expression
    else pure .empty
  unless ← expect .kwDo follow do return .empty
  let body ← call .statementSequence
  unless ← expect .kwEnd follow do return .empty
  let control ← terminal .ident control
  branch .forStatement [control, first, last, step, body]

/-- The exit from a loop. -/
def exitStatement : Script Node := do
  skip
  branch .exitStatement []

/-- Any statement. -/
def statement (ctx : Context) : Script Node := do
  enter .statement
  match ← lookahead with
  | .ident => assignmentOrProcCall ctx
  | .kwReturn => returnStatement ctx
  | .kwWith => withStatement ctx
  | .kwIf => ifStatement ctx
  | .kwCase => caseStatement ctx
  | .kwLoop => loopStatement ctx
  | .kwWhile => whileStatement ctx
  | .kwRepeat => repeatStatement ctx
  | .kwFor => forStatement ctx
  | .kwExit => exitStatement
  | _ => noAlternative ctx .statement

/-- Statements with semicolons between them; none at all is warned of. -/
def statementSequence (ctx : Context) : Script Node := do
  enter .statementSequence
  let follow := Production.statementSequence.follow ctx
  if follow.contains (← lookahead) then
    act (.warnNext .emptyStatements)
    return .empty
  let first ← statement ctx
  let statements ← loop [first] fun statements => do
    let t ← lookahead
    if t = .semicolon then
      skip
      if follow.contains (← lookahead) then
        act (.warnAccepted .semicolonAfterStatements)
        return .done statements
      return .yield ((← statement ctx) :: statements)
    if (Production.statement.first ctx).contains t then
      act (.reject (.token .semicolon))
      return .yield ((← statement ctx) :: statements)
    return .done statements
  list .statementSequence statements.reverse

end Modula.Script
