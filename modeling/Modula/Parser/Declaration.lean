import Modula.Parser.Statement

/-!
# Definitions, declarations and blocks

Definitions say what a module exports, declarations what a block consists of. Both come in sections, each under a
reserved word. A block is a row of declarations followed by statements; procedures and local modules have blocks of
their own and end with their names.
-/

set_option autoImplicit false

namespace Modula.Script

/-- The items of a section under a reserved word, each with a semicolon after it. -/
def itemSection (ctx : Context) (p : Production) (item : Script Node) (follow : TokenSet) : Script (List Node) := do
  skip
  whileStarts ctx p do
    let node ← item
    let _ ← expect .semicolon (follow.insert .ident)
    return node

/-- A single item with a semicolon after it. -/
def closed (item : Script Node) (follow : TokenSet) : Script (List Node) := do
  let node ← item
  let _ ← expect .semicolon follow
  return [node]

/-- A name for the value of an expression. -/
def constDefinition (ctx : Context) : Script Node := do
  enter .constDefinition
  let follow := Production.constDefinition.follow ctx
  let some ident ← expectIdent follow | return .empty
  unless ← expect .equal follow do return .empty
  let ident ← terminal .ident ident
  let value ← call .expression
  branch .constDefinition [ident, value]

/-- A name for a type, which may stay hidden. -/
def typeDefinition (ctx : Context) : Script Node := do
  enter .typeDefinition
  let some ident ← expectIdent (Production.typeDefinition.follow ctx) | return .empty
  let ident ← terminal .ident ident
  let type ←
    if ← nextIs .equal then do
      skip
      call .typeExpression
    else pure .empty
  branch .typeDefinition [ident, type]

/-- Variables of one type. -/
def variableDeclaration (ctx : Context) : Script Node := do
  enter .variableDeclaration
  let idents ← identList ctx
  unless ← expect .colon (Production.variableDeclaration.follow ctx) do return .empty
  let type ← call .typeExpression
  branch .variableDeclaration [idents, type]

/-- A section of definitions, or the header of one procedure. -/
def definition (ctx : Context) : Script (List Node) := do
  enter .definition
  let follow := Production.definition.follow ctx
  match ← lookahead with
  | .kwConst => itemSection ctx .constDefinition (constDefinition ctx) follow
  | .kwType => itemSection ctx .typeDefinition (typeDefinition ctx) follow
  | .kwVar => itemSection ctx .variableDeclaration (variableDeclaration ctx) follow
  | .kwProcedure => closed (procedureHeader ctx) follow
  | _ => return [← noAlternative ctx .definition]

/-- A record whose last field is an array of a size fixed by another field. -/
def varSizeRecordType (ctx : Context) : Script Node := do
  enter .varSizeRecordType
  let follow := Production.varSizeRecordType.follow ctx
  skip
  unless ← expect .kwRecord follow do return .empty
  let fields ← fieldListSequence ctx
  unless ← expect .kwIn follow do return .empty
  let some field ← expectIdent follow | return .empty
  unless ← expect .colon follow do return .empty
  unless ← expect .kwArray follow do return .empty
  let some size ← expectIdent follow | return .empty
  unless ← expect .kwOf follow do return .empty
  let element ← qualident ctx
  unless ← expect .kwEnd follow do return .empty
  let field ← terminal .ident field
  let size ← terminal .ident size
  let last ← branch .varSizeField [field, size, element]
  branch .varSizeRecord [fields, last]

/-- A type, or a record of variable size. -/
def typeDeclarationTail (ctx : Context) : Script Node := do
  enter .typeDeclarationTail
  if ← starts ctx .typeExpression then call .typeExpression
  else if ← starts ctx .typeDeclarationTail then varSizeRecordType ctx
  else noAlternative ctx .typeDeclarationTail

/-- A name for a type. -/
def typeDeclaration (ctx : Context) : Script Node := do
  enter .typeDeclaration
  let follow := Production.typeDeclaration.follow ctx
  let some ident ← expectIdent follow | return .empty
  unless ← expect .equal follow do return .empty
  let ident ← terminal .ident ident
  let tail ← typeDeclarationTail ctx
  branch .typeDeclaration [ident, tail]

/-- A procedure with its block and its name at the end. -/
def procedureDeclaration (ctx : Context) : Script Node := do
  enter .procedureDeclaration
  let header ← procedureHeader ctx
  let name := (header.subnode? 0).bind (·.value? 0)
  unless ← expect .semicolon (Production.block.first ctx) do
    unless ← starts ctx .block do return .empty
  let body ← call .block
  let closing ← expectIdent (Production.procedureDeclaration.follow ctx)
  checkClosing name closing
  branch .procedureDeclaration [header, body]

/-- An import of whole modules. -/
def qualifiedImport (ctx : Context) : Script Node := do
  enter .qualifiedImport
  skip
  let idents ← identList ctx
  unless ← expect .semicolon (Production.qualifiedImport.follow ctx) do return .empty
  branch .qualifiedImport [idents]

/-- An import of names from a module. -/
def unqualifiedImport (ctx : Context) : Script Node := do
  enter .unqualifiedImport
  let follow := Production.unqualifiedImport.follow ctx
  skip
  let some source ← expectIdent follow | return .empty
  unless ← expect .kwImport follow do return .empty
  let idents ← identList ctx
  unless ← expect .semicolon follow do return .empty
  let source ← terminal .ident source
  branch .unqualifiedImport [source, idents]

/-- An import of either form. -/
def importClause (ctx : Context) : Script Node := do
  enter .importClause
  if ← starts ctx .qualifiedImport then qualifiedImport ctx
  else if ← starts ctx .unqualifiedImport then unqualifiedImport ctx
  else noAlternative ctx .importClause

/-- All imports of a module, of which there may be none. -/
def imports (ctx : Context) : Script Node := do
  list .importList (← whileStarts ctx .importClause (importClause ctx))

/-- The priority of a module between brackets. -/
def modulePriority (ctx : Context) : Script Node := do
  enter .modulePriority
  skip
  let priority ← call .expression
  unless ← expect .rbracket (Production.modulePriority.follow ctx) do return .empty
  return priority

/-- The priority of a module, or the empty node if none is given. -/
def optionalPriority (ctx : Context) : Script Node := do
  if ← starts ctx .modulePriority then modulePriority ctx else return .empty

/-- The semicolon that ends the heading of a module; without it the parser goes on with the body. -/
def endHeading (body : TokenSet) : Script Unit := do
  if ← nextIs .semicolon then skip
  else
    act (.reject (.token .semicolon))
    skipTo body

/-- The names that a local module exports. -/
def exportClause (ctx : Context) : Script Node := do
  enter .exportClause
  skip
  let type ←
    if ← nextIs .kwQualified then do
      skip
      pure NodeType.qualifiedExport
    else pure NodeType.unqualifiedExport
  let idents ← identList ctx
  unless ← expect .semicolon (Production.exportClause.follow ctx) do return .empty
  branch type [idents]

/-- A local module with its block and its name at the end. -/
def moduleDeclaration (ctx : Context) : Script Node := do
  enter .moduleDeclaration
  let body :=
    ((Production.importClause.first ctx).union (Production.exportClause.first ctx)).union
      (Production.block.first ctx)
  skip
  let ident ← expectIdent ((body.insert .semicolon).insert .lbracket)
  let priority ← optionalPriority ctx
  endHeading body
  let imports ← imports ctx
  let exported ← if ← starts ctx .exportClause then exportClause ctx else pure .empty
  let block ← call .block
  let closing ← expectIdent (Production.moduleDeclaration.follow ctx)
  checkClosing ident closing
  let ident ← identNode ident
  branch .moduleDeclaration [ident, priority, imports, exported, block]

/-- A section of declarations, or one procedure or local module. -/
def declaration (ctx : Context) : Script (List Node) := do
  enter .declaration
  let follow := Production.declaration.follow ctx
  match ← lookahead with
  | .kwConst => itemSection ctx .constDefinition (constDefinition ctx) follow
  | .kwType => itemSection ctx .typeDeclaration (typeDeclaration ctx) follow
  | .kwVar => itemSection ctx .variableDeclaration (variableDeclaration ctx) follow
  | .kwProcedure => closed (procedureDeclaration ctx) follow
  | .kwModule => closed (moduleDeclaration ctx) follow
  | _ => return [← noAlternative ctx .declaration]

/-- Declarations and statements up to `END`. -/
def block (ctx : Context) : Script Node := do
  enter .block
  let declarations ← whileStarts ctx .declaration (declaration ctx)
  let statements ←
    if ← nextIs .kwBegin then do
      skip
      call .statementSequence
    else pure .empty
  let _ ← expect .kwEnd (Production.block.follow ctx)
  let declarations ← list .declarationList declarations.flatten
  branch .block [declarations, statements]

end Modula.Script
