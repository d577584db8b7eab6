import Modula.Parser.Module
import Modula.Proofs.Grammar.Ebnf

/-!
# The grammar

One row of expressions for each production. Sequences of statements and of fields may be absent, and they and formal
parameters may end in one semicolon more; cases and variants between bars may be absent. The context decides about
constant parameters and about the forms of records.
-/

set_option autoImplicit false

namespace Modula

open Ebnf

/-- A form of the grammar. -/
structure Grammar where
  context : Context
  /-- Whether the type of a set value has to be a name. -/
  namesSetTypes : Bool

namespace Grammar

/-- The tokens that pass a formal parameter in another way than by value. -/
def attributes (ctx : Context) : List Ebnf := anyOf (if ctx.constParameters then [.kwConst, .kwVar] else [.kwVar])

/-- Items with semicolons between them, and perhaps one after them. -/
def terminated (item : List Ebnf) : List Ebnf := separated .semicolon item ++ [opt [token .semicolon]]

/-- The row of a production. -/
def rules (g : Grammar) : Production → List Ebnf
  | .definitionModule =>
    [token .kwDefinition, token .kwModule, opening, token .semicolon, many [call .importClause],
     many [call .definition], token .kwEnd, closing, token .dot]
  | .importClause => oneOf [[call .qualifiedImport], [call .unqualifiedImport]]
  | .qualifiedImport => [token .kwImport, call .identList, token .semicolon]
  | .unqualifiedImport => [token .kwFrom, token .ident, token .kwImport, call .identList, token .semicolon]
  | .identList => separated .comma [token .ident]
  | .definition => oneOf
      [[token .kwConst, many [call .constDefinition, token .semicolon]],
       [token .kwType, many [call .typeDefinition, token .semicolon]],
       [token .kwVar, many [call .variableDeclaration, token .semicolon]],
       [call .procedureHeader, token .semicolon]]
  | .constDefinition => [token .ident, token .equal, call .expression]
  | .typeDefinition => [token .ident, opt [token .equal, call .typeExpression]]
  | .typeExpression => oneOf
      [[call .derivedOrSubrangeType], [call .enumType], [call .setType], [call .arrayType],
       [call (if g.context.variantRecords then .variantRecordType else .extensibleRecordType)], [call .pointerType],
       [call .procedureType]]
  | .derivedOrSubrangeType => oneOf [[call .qualident, opt [call .range]], [call .range]]
  | .qualident => [token .ident, many [token .dot, token .ident]]
  | .range => [token .lbracket, call .expression, token .dotDot, call .expression, token .rbracket]
  | .enumType => [token .lparen, call .identList, token .rparen]
  | .setType => [token .kwSet, token .kwOf, call .countableType]
  | .countableType => oneOf [[call .range], [call .enumType], [call .qualident, opt [call .range]]]
  | .arrayType => token .kwArray :: (separated .comma [call .countableType] ++ [token .kwOf, call .typeExpression])
  | .extensibleRecordType =>
    [token .kwRecord, opt [token .lparen, call .qualident, token .rparen], call .fieldListSequence, token .kwEnd]
  | .fieldListSequence => [opt (terminated [call .fieldList])]
  | .fieldList => [call .identList, token .colon, call .typeExpression]
  | .variantRecordType => [token .kwRecord, call .variantFieldListSeq, token .kwEnd]
  | .variantFieldListSeq => [opt (terminated [call .variantFieldList])]
  | .variantFieldList => oneOf [[call .fieldList], [call .variantFields]]
  | .variantFields =>
    token .kwCase :: opt [token .ident] :: token .colon :: call .qualident :: token .kwOf ::
      (separated .bar [opt [call .variant]] ++ [opt [token .kwElse, call .variantFieldListSeq], token .kwEnd])
  | .variant => [call .caseLabelList, token .colon, call .variantFieldListSeq]
  | .caseLabelList => separated .comma [call .caseLabels]
  | .caseLabels => [call .expression, opt [token .dotDot, call .expression]]
  | .pointerType => [token .kwPointer, token .kwTo, call .typeExpression]
  | .procedureType =>
    [token .kwProcedure, opt [token .lparen, opt (separated .comma [call .formalType]), token .rparen],
     opt [token .colon, call .qualident]]
  | .formalType => oneOf [[call .simpleFormalType], [call .attributedFormalType]]
  | .simpleFormalType => [opt [token .kwArray, token .kwOf], call .qualident]
  | .attributedFormalType => attributes g.context ++ [call .simpleFormalType]
  | .procedureHeader => [token .kwProcedure, named .procedureSignature]
  | .procedureSignature =>
    [opening,
     opt [token .lparen, opt [call .formalParamList], token .rparen, opt [token .colon, call .qualident]]]
  | .formalParamList => terminated [call .formalParams]
  | .formalParams => oneOf [[call .simpleFormalParams], [call .attribFormalParams]]
  | .simpleFormalParams => [call .identList, token .colon, call .simpleFormalType]
  | .attribFormalParams => attributes g.context ++ [call .simpleFormalParams]
  | .implementationModule => [token .kwImplementation, call .programModule]
  | .programModule =>
    [token .kwModule, opening, opt [call .modulePriority], token .semicolon, many [call .importClause], call .block,
     closing, token .dot]
  | .modulePriority => [token .lbracket, call .expression, token .rbracket]
  | .block => [many [call .declaration], opt [token .kwBegin, call .statementSequence], token .kwEnd]
  | .declaration => oneOf
      [[token .kwConst, many [call .constDefinition, token .semicolon]],
       [token .kwType, many [call .typeDeclaration, token .semicolon]],
       [token .kwVar, many [call .variableDeclaration, token .semicolon]],
       [call .procedureDeclaration, token .semicolon], [call .moduleDeclaration, token .semicolon]]
  | .typeDeclaration => [token .ident, token .equal, call .typeDeclarationTail]
  | .typeDeclarationTail =>
    if g.context.variantRecords then [call .typeExpression]
    else oneOf [[call .typeExpression], [call .varSizeRecordType]]
  | .varSizeRecordType =>
    [token .kwVar, token .kwRecord, call .fieldListSequence, token .kwIn, token .ident, token .colon, token .kwArray,
     token .ident, token .kwOf, call .qualident, token .kwEnd]
  | .variableDeclaration => [call .identList, token .colon, call .typeExpression]
  | .procedureDeclaration => [named .procedureHeader, token .semicolon, call .block, closing]
  | .moduleDeclaration =>
    [token .kwModule, opening, opt [call .modulePriority], token .semicolon, many [call .importClause],
     opt [call .exportClause], call .block, closing]
  | .exportClause => [token .kwExport, opt [token .kwQualified], call .identList, token .semicolon]
  | .statementSequence => [opt (terminated [call .statement])]
  | .statement => oneOf
      [[call .assignmentOrProcCall], [call .returnStatement], [call .withStatement], [call .ifStatement],
       [call .caseStatement], [call .loopStatement], [call .whileStatement], [call .repeatStatement],
       [call .forStatement], [token .kwExit]]
  | .assignmentOrProcCall =>
    call .designator :: oneOf [[token .assign, call .expression], [opt [call .actualParameters]]]
  | .actualParameters => [token .lparen, opt [call .expressionList], token .rparen]
  | .expressionList => separated .comma [call .expression]
  | .returnStatement => [token .kwReturn, opt [call .expression]]
  | .withStatement => [token .kwWith, call .designator, token .kwDo, call .statementSequence, token .kwEnd]
  | .ifStatement =>
    [token .kwIf, call .expression, token .kwThen, call .statementSequence,
     many [token .kwElsif, call .expression, token .kwThen, call .statementSequence],
     opt [token .kwElse, call .statementSequence], token .kwEnd]
  | .caseStatement =>
    token .kwCase :: call .expression :: token .kwOf ::
      (separated .bar [opt [call .caseBranch]] ++ [opt [token .kwElse, call .statementSequence], token .kwEnd])
  | .caseBranch => [call .caseLabelList, token .colon, call .statementSequence]
  | .loopStatement => [token .kwLoop, call .statementSequence, token .kwEnd]
  | .whileStatement => [token .kwWhile, call .expression, token .kwDo, call .statementSequence, token .kwEnd]
  | .repeatStatement => [token .kwRepeat, call .statementSequence, token .kwUntil, call .expression]
  | .forStatement =>
    [token .kwFor, token .ident, token .assign, call .expression, token .kwTo, call .expression,
     opt [token .kwBy, call .expression], token .kwDo, call .statementSequence, token .kwEnd]
  | .designator => [call .qualident, many [call .selector]]
  | .selector =>
    oneOf [[token .caret], [token .dot, token .ident], [token .lbracket, call .expressionList, token .rbracket]]
  | .expression =>
    [call .simpleExpression,
     opt (anyOf [.equal, .notEqual, .less, .lessEqual, .greater, .greaterEqual, .kwIn] ++ [call .simpleExpression])]
  | .simpleExpression =>
    [opt (anyOf [.plus, .minus]), call .term, many (anyOf [.plus, .minus, .kwOr] ++ [call .term])]
  | .term => [call .simpleTerm, many (anyOf [.star, .slash, .kwDiv, .kwMod, .kwAnd] ++ [call .simpleTerm])]
  | .simpleTerm => [opt [token .kwNot], call .factor]
  | .factor => oneOf
      [anyOf [.integer, .real, .char, .string], [call .setValue], [call .designatorOrFuncCall],
       [token .lparen, call .expression, token .rparen]]
  | .designatorOrFuncCall =>
    if g.namesSetTypes then oneOf [[call .designator, opt [call .actualParameters]], [call .qualident, call .setValue]]
    else call .designator :: oneOf [[call .setValue], [opt [call .actualParameters]]]
  | .setValue => [token .lbrace, opt (separated .comma [call .element]), token .rbrace]
  | .element => [call .expression, opt [token .dotDot, call .expression]]

/-- The row of a unit. -/
def start : UnitKind → List Ebnf
  | .definition => [call .definitionModule]
  | .implementation => oneOf [[call .implementationModule], [call .programModule]]

end Grammar

end Modula
