import Modula.Grammar.Production

/-!
# FOLLOW sets

The FOLLOW set of a production holds the tokens that can stand right after a text derived from it in a complete unit.
The parser skips to a token of this set after a syntax error.
-/

set_option autoImplicit false

namespace Modula.Production

/-- The tokens that can stand right after a text derived from the production. -/
def follow (ctx : Context) : Production → TokenSet
  | .definitionModule | .implementationModule | .programModule => {.eof}
  | .importClause | .qualifiedImport | .unqualifiedImport =>
      {.kwBegin, .kwConst, .kwEnd, .kwExport, .kwFrom, .kwImport, .kwModule, .kwProcedure, .kwType, .kwVar}
  | .identList => {.colon, .semicolon, .rparen}
  | .definition => {.kwConst, .kwEnd, .kwProcedure, .kwType, .kwVar}
  | .constDefinition | .typeDefinition | .procedureHeader | .procedureSignature | .modulePriority
  | .typeDeclaration | .typeDeclarationTail | .varSizeRecordType | .variableDeclaration | .procedureDeclaration
  | .moduleDeclaration =>
    {.semicolon}
  | .typeExpression | .derivedOrSubrangeType | .setType | .arrayType | .fieldList | .pointerType | .procedureType =>
    if ctx.variantRecords then {.kwElse, .kwEnd, .semicolon, .bar}
    else {.kwEnd, .kwIn, .semicolon}
  | .qualident | .selector =>
      {.kwAnd, .kwBy, .kwDiv, .kwDo, .kwElse, .kwElsif, .kwEnd, .kwIn, .kwMod, .kwOf, .kwOr, .kwThen, .kwTo,
      .kwUntil, .plus, .minus, .equal, .notEqual, .less, .lessEqual, .greater, .greaterEqual, .star, .slash,
      .assign, .comma, .dot, .colon, .semicolon, .dotDot, .caret, .bar, .lparen, .rparen, .lbracket, .rbracket,
      .lbrace, .rbrace}
  | .range | .enumType | .countableType =>
    if ctx.variantRecords then {.kwElse, .kwEnd, .kwOf, .comma, .semicolon, .bar}
    else {.kwEnd, .kwIn, .kwOf, .comma, .semicolon}
  | .extensibleRecordType => {.kwEnd, .kwIn, .semicolon}
  | .fieldListSequence => {.kwEnd, .kwIn}
  | .variantRecordType | .variantFieldList | .variantFields => {.kwElse, .kwEnd, .semicolon, .bar}
  | .variantFieldListSeq | .variant | .caseBranch => {.kwElse, .kwEnd, .bar}
  | .caseLabelList => {.colon}
  | .caseLabels => {.comma, .colon}
  | .formalType | .attributedFormalType => {.comma, .rparen}
  | .simpleFormalType => {.comma, .semicolon, .rparen}
  | .formalParamList => {.rparen}
  | .formalParams | .simpleFormalParams | .attribFormalParams => {.semicolon, .rparen}
  | .block => {.ident}
  | .declaration | .exportClause => {.kwBegin, .kwConst, .kwEnd, .kwModule, .kwProcedure, .kwType, .kwVar}
  | .statementSequence => {.kwElse, .kwElsif, .kwEnd, .kwUntil, .bar}
  | .statement | .assignmentOrProcCall | .returnStatement | .withStatement | .ifStatement | .caseStatement
  | .loopStatement | .whileStatement | .repeatStatement | .forStatement =>
    {.kwElse, .kwElsif, .kwEnd, .kwUntil, .semicolon, .bar}
  | .actualParameters | .simpleTerm | .factor | .designatorOrFuncCall | .setValue =>
      {.kwAnd, .kwBy, .kwDiv, .kwDo, .kwElse, .kwElsif, .kwEnd, .kwIn, .kwMod, .kwOf, .kwOr, .kwThen, .kwTo,
      .kwUntil, .plus, .minus, .equal, .notEqual, .less, .lessEqual, .greater, .greaterEqual, .star, .slash,
      .comma, .colon, .semicolon, .dotDot, .bar, .rparen, .rbracket, .rbrace}
  | .expressionList => {.rparen, .rbracket}
  | .designator =>
      {.kwAnd, .kwBy, .kwDiv, .kwDo, .kwElse, .kwElsif, .kwEnd, .kwIn, .kwMod, .kwOf, .kwOr, .kwThen, .kwTo,
      .kwUntil, .plus, .minus, .equal, .notEqual, .less, .lessEqual, .greater, .greaterEqual, .star, .slash,
      .assign, .comma, .colon, .semicolon, .dotDot, .bar, .lparen, .rparen, .rbracket, .lbrace, .rbrace}
  | .expression =>
      {.kwBy, .kwDo, .kwElse, .kwElsif, .kwEnd, .kwOf, .kwThen, .kwTo, .kwUntil, .comma, .colon, .semicolon,
      .dotDot, .bar, .rparen, .rbracket, .rbrace}
  | .simpleExpression =>
      {.kwBy, .kwDo, .kwElse, .kwElsif, .kwEnd, .kwIn, .kwOf, .kwThen, .kwTo, .kwUntil, .equal, .notEqual, .less,
      .lessEqual, .greater, .greaterEqual, .comma, .colon, .semicolon, .dotDot, .bar, .rparen, .rbracket, .rbrace}
  | .term =>
      {.kwBy, .kwDo, .kwElse, .kwElsif, .kwEnd, .kwIn, .kwOf, .kwOr, .kwThen, .kwTo, .kwUntil, .plus, .minus,
      .equal, .notEqual, .less, .lessEqual, .greater, .greaterEqual, .comma, .colon, .semicolon, .dotDot, .bar,
      .rparen, .rbracket, .rbrace}
  | .element => {.comma, .rbrace}

end Modula.Production
