import Modula.Parser.Declaration

/-!
# Compilation units

A definition unit holds one definition module, an implementation unit an implementation or a program module. A unit ends
with the input; what is left after the module is reported.
-/

set_option autoImplicit false

namespace Modula

/-- What a compilation unit holds. -/
inductive UnitKind where
  | definition
  | implementation
deriving DecidableEq, Repr

/-- The script of a rule. -/
def Rule.body (ctx : Context) : Rule → Script Node
  | .expression => Script.expression ctx
  | .typeExpression => Script.typeExpression ctx
  | .variantFields => Script.variantFields ctx
  | .statementSequence => Script.statementSequence ctx
  | .block => Script.block ctx

namespace Script

/-- A definition module. -/
def definitionModule (ctx : Context) : Script Node := do
  enter .definitionModule
  let body :=
    ((Production.importClause.first ctx).union (Production.definition.first ctx)).insert .kwEnd
  let follow := Production.definitionModule.follow ctx
  let _ ← expect .kwDefinition {.kwModule}
  let _ ← expect .kwModule {.ident}
  let ident ← expectIdent (body.insert .semicolon)
  endHeading body
  let imports ← imports ctx
  let definitions ← whileStarts ctx .definition (definition ctx)
  let ended ← expect .kwEnd (follow.insert .ident)
  if ended || (← nextIs .ident) then
    let closing ← expectIdent (follow.insert .dot)
    checkClosing ident closing
    let _ ← expect .dot follow
  let ident ← identNode ident
  let definitions ← list .definitionList definitions.flatten
  branch .definitionModule [ident, imports, definitions]

/-- A program module, or the part of an implementation module after its first word. -/
def programModule (ctx : Context) (type : NodeType) : Script Node := do
  enter .programModule
  let body := (Production.importClause.first ctx).union (Production.block.first ctx)
  let follow := Production.programModule.follow ctx
  let _ ← expect .kwModule {.ident}
  let ident ← expectIdent ((body.insert .semicolon).insert .lbracket)
  let priority ← optionalPriority ctx
  endHeading body
  let imports ← imports ctx
  let block ← call .block
  let closing ← expectIdent (follow.insert .dot)
  checkClosing ident closing
  if closing.isSome then
    let _ ← expect .dot follow
  let ident ← identNode ident
  branch type [ident, priority, imports, block]

/-- An implementation module. -/
def implementationModule (ctx : Context) : Script Node := do
  enter .implementationModule
  skip
  programModule ctx .implementationModule

/-- Reports what is left of the input. -/
def expectEnd : Script Unit := do
  unless ← nextIs .eof do act (.reject (.token .eof))

/-- A unit with a definition module. -/
def definitionUnit (ctx : Context) : Script Node := do
  let module ← definitionModule ctx
  expectEnd
  return module

/-- A unit with an implementation or program module; anything in front of the module is skipped. -/
def implementationUnit (ctx : Context) : Script Node := do
  let implementation := Production.implementationModule.first ctx
  let program := Production.programModule.first ctx
  let headings := implementation.union program
  unless headings.contains (← lookahead) do
    act (.reject (.ofSet headings))
    skipTo headings
  let t ← lookahead
  let module ←
    if implementation.contains t then implementationModule ctx
    else if program.contains t then programModule ctx .programModule
    else pure .empty
  expectEnd
  return module

/-- A unit of the kind. -/
def unit (ctx : Context) : UnitKind → Script Node
  | .definition => definitionUnit ctx
  | .implementation => implementationUnit ctx

end Script

end Modula
