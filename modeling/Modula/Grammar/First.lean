import Modula.Grammar.Production

/-!
# FIRST sets

The FIRST set of a production holds the tokens that a text derived from it can start with. The parser picks an
alternative when the lookahead is in its FIRST set.
-/

set_option autoImplicit false

namespace Modula.Production

/-- The tokens that a text derived from the production can start with. -/
def first (ctx : Context) : Production → TokenSet
  | .definitionModule => {.kwDefinition}
  | .importClause => {.kwFrom, .kwImport}
  | .qualifiedImport => {.kwImport}
  | .unqualifiedImport => {.kwFrom}
  | .identList | .constDefinition | .typeDefinition | .qualident | .fieldListSequence | .fieldList
  | .procedureSignature | .simpleFormalParams | .typeDeclaration | .variableDeclaration | .assignmentOrProcCall
  | .designator | .designatorOrFuncCall =>
    {.ident}
  | .definition => {.kwConst, .kwProcedure, .kwType, .kwVar}
  | .typeExpression => {.kwArray, .kwPointer, .kwProcedure, .kwRecord, .kwSet, .ident, .lparen, .lbracket}
  | .derivedOrSubrangeType => {.ident, .lbracket}
  | .range | .modulePriority => {.lbracket}
  | .enumType | .actualParameters => {.lparen}
  | .setType => {.kwSet}
  | .countableType => {.ident, .lparen, .lbracket}
  | .arrayType => {.kwArray}
  | .extensibleRecordType | .variantRecordType => {.kwRecord}
  | .variantFieldListSeq | .variantFieldList => {.kwCase, .ident}
  | .variantFields | .caseStatement => {.kwCase}
  | .variant | .caseLabelList | .caseLabels | .expressionList | .caseBranch | .expression | .simpleExpression
  | .element =>
    {.kwNot, .ident, .string, .integer, .real, .char, .plus, .minus, .lparen, .lbrace}
  | .pointerType => {.kwPointer}
  | .procedureType | .procedureHeader | .procedureDeclaration => {.kwProcedure}
  | .formalType =>
    if ctx.constParameters then {.kwArray, .kwConst, .kwVar, .ident}
    else {.kwArray, .kwVar, .ident}
  | .simpleFormalType => {.kwArray, .ident}
  | .attributedFormalType | .attribFormalParams =>
    if ctx.constParameters then {.kwConst, .kwVar}
    else {.kwVar}
  | .formalParamList | .formalParams =>
    if ctx.constParameters then {.kwConst, .kwVar, .ident}
    else {.kwVar, .ident}
  | .implementationModule => {.kwImplementation}
  | .programModule | .moduleDeclaration => {.kwModule}
  | .block => {.kwBegin, .kwConst, .kwEnd, .kwModule, .kwProcedure, .kwType, .kwVar}
  | .declaration => {.kwConst, .kwModule, .kwProcedure, .kwType, .kwVar}
  | .typeDeclarationTail =>
    if ctx.variantRecords then {.kwArray, .kwPointer, .kwProcedure, .kwRecord, .kwSet, .ident, .lparen, .lbracket}
    else {.kwArray, .kwPointer, .kwProcedure, .kwRecord, .kwSet, .kwVar, .ident, .lparen, .lbracket}
  | .varSizeRecordType => {.kwVar}
  | .exportClause => {.kwExport}
  | .statementSequence | .statement =>
      {.kwCase, .kwExit, .kwFor, .kwIf, .kwLoop, .kwRepeat, .kwReturn, .kwWhile, .kwWith, .ident}
  | .returnStatement => {.kwReturn}
  | .withStatement => {.kwWith}
  | .ifStatement => {.kwIf}
  | .loopStatement => {.kwLoop}
  | .whileStatement => {.kwWhile}
  | .repeatStatement => {.kwRepeat}
  | .forStatement => {.kwFor}
  | .selector => {.dot, .caret, .lbracket}
  | .term | .simpleTerm => {.kwNot, .ident, .string, .integer, .real, .char, .lparen, .lbrace}
  | .factor => {.ident, .string, .integer, .real, .char, .lparen, .lbrace}
  | .setValue => {.lbrace}

end Modula.Production
