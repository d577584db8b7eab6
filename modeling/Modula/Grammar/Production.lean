import Modula.Token.Set

/-!
# Productions of the grammar

One production for each non-terminal. Two options change the grammar: with const parameters, `CONST` is an attribute of
formal parameters; without variant records, records are extensible and records of variable size become available. A
context holds these two switches.
-/

set_option autoImplicit false

namespace Modula

/-- The two switches that the grammar depends on. -/
structure Context where
  constParameters : Bool
  variantRecords : Bool
deriving DecidableEq, Repr

namespace Context

/-- The context of the default dialect. -/
def standard : Context := ⟨false, true⟩

instance : Inhabited Context := ⟨standard⟩

/-- Every combination of the switches. -/
def all : List Context := [⟨false, false⟩, ⟨false, true⟩, ⟨true, false⟩, ⟨true, true⟩]

/-- The list has all contexts. -/
theorem mem_all (ctx : Context) : ctx ∈ all := by
  obtain ⟨c, v⟩ := ctx
  cases c <;> cases v <;> decide

end Context

/-- A non-terminal of the grammar. -/
inductive Production where
  | definitionModule | importClause | qualifiedImport | unqualifiedImport | identList | definition
  | constDefinition | typeDefinition | typeExpression | derivedOrSubrangeType | qualident | range | enumType
  | setType | countableType | arrayType | extensibleRecordType | fieldListSequence | fieldList | variantRecordType
  | variantFieldListSeq | variantFieldList | variantFields | variant | caseLabelList | caseLabels | pointerType
  | procedureType | formalType | simpleFormalType | attributedFormalType | procedureHeader | procedureSignature
  | formalParamList | formalParams | simpleFormalParams | attribFormalParams | implementationModule | programModule
  | modulePriority | block | declaration | typeDeclaration | typeDeclarationTail | varSizeRecordType
  | variableDeclaration | procedureDeclaration | moduleDeclaration | exportClause | statementSequence | statement
  | assignmentOrProcCall | actualParameters | expressionList | returnStatement | withStatement | ifStatement
  | caseStatement | caseBranch | loopStatement | whileStatement | repeatStatement | forStatement | designator
  | selector | expression | simpleExpression | term | simpleTerm | factor | designatorOrFuncCall | setValue
  | element
deriving DecidableEq, Inhabited, Repr

namespace Production

/-- Every production, in declaration order. -/
def all : List Production :=
  [.definitionModule, .importClause, .qualifiedImport, .unqualifiedImport, .identList, .definition,
   .constDefinition, .typeDefinition, .typeExpression, .derivedOrSubrangeType, .qualident, .range, .enumType,
   .setType, .countableType, .arrayType, .extensibleRecordType, .fieldListSequence, .fieldList, .variantRecordType,
   .variantFieldListSeq, .variantFieldList, .variantFields, .variant, .caseLabelList, .caseLabels, .pointerType,
   .procedureType, .formalType, .simpleFormalType, .attributedFormalType, .procedureHeader, .procedureSignature,
   .formalParamList, .formalParams, .simpleFormalParams, .attribFormalParams, .implementationModule,
   .programModule, .modulePriority, .block, .declaration, .typeDeclaration, .typeDeclarationTail,
   .varSizeRecordType, .variableDeclaration, .procedureDeclaration, .moduleDeclaration, .exportClause,
   .statementSequence, .statement, .assignmentOrProcCall, .actualParameters, .expressionList, .returnStatement,
   .withStatement, .ifStatement, .caseStatement, .caseBranch, .loopStatement, .whileStatement, .repeatStatement,
   .forStatement, .designator, .selector, .expression, .simpleExpression, .term, .simpleTerm, .factor,
   .designatorOrFuncCall, .setValue, .element]

/-- The name of a production as the grammar writes it. -/
def name : Production → String
  | .definitionModule => "definitionModule"
  | .importClause => "import"
  | .qualifiedImport => "qualifiedImport"
  | .unqualifiedImport => "unqualifiedImport"
  | .identList => "identList"
  | .definition => "definition"
  | .constDefinition => "constDefinition"
  | .typeDefinition => "typeDefinition"
  | .typeExpression => "type"
  | .derivedOrSubrangeType => "derivedOrSubrangeType"
  | .qualident => "qualident"
  | .range => "range"
  | .enumType => "enumType"
  | .setType => "setType"
  | .countableType => "countableType"
  | .arrayType => "arrayType"
  | .extensibleRecordType => "extensibleRecordType"
  | .fieldListSequence => "fieldListSequence"
  | .fieldList => "fieldList"
  | .variantRecordType => "variantRecordType"
  | .variantFieldListSeq => "variantFieldListSeq"
  | .variantFieldList => "variantFieldList"
  | .variantFields => "variantFields"
  | .variant => "variant"
  | .caseLabelList => "caseLabelList"
  | .caseLabels => "caseLabels"
  | .pointerType => "pointerType"
  | .procedureType => "procedureType"
  | .formalType => "formalType"
  | .simpleFormalType => "simpleFormalType"
  | .attributedFormalType => "attributedFormalType"
  | .procedureHeader => "procedureHeader"
  | .procedureSignature => "procedureSignature"
  | .formalParamList => "formalParamList"
  | .formalParams => "formalParams"
  | .simpleFormalParams => "simpleFormalParams"
  | .attribFormalParams => "attribFormalParams"
  | .implementationModule => "implementationModule"
  | .programModule => "programModule"
  | .modulePriority => "modulePriority"
  | .block => "block"
  | .declaration => "declaration"
  | .typeDeclaration => "typeDeclaration"
  | .typeDeclarationTail => "typeDeclarationTail"
  | .varSizeRecordType => "varSizeRecordType"
  | .variableDeclaration => "variableDeclaration"
  | .procedureDeclaration => "procedureDeclaration"
  | .moduleDeclaration => "moduleDeclaration"
  | .exportClause => "export"
  | .statementSequence => "statementSequence"
  | .statement => "statement"
  | .assignmentOrProcCall => "assignmentOrProcCall"
  | .actualParameters => "actualParameters"
  | .expressionList => "expressionList"
  | .returnStatement => "returnStatement"
  | .withStatement => "withStatement"
  | .ifStatement => "ifStatement"
  | .caseStatement => "caseStatement"
  | .caseBranch => "case"
  | .loopStatement => "loopStatement"
  | .whileStatement => "whileStatement"
  | .repeatStatement => "repeatStatement"
  | .forStatement => "forStatement"
  | .designator => "designator"
  | .selector => "selector"
  | .expression => "expression"
  | .simpleExpression => "simpleExpression"
  | .term => "term"
  | .simpleTerm => "simpleTerm"
  | .factor => "factor"
  | .designatorOrFuncCall => "designatorOrFuncCall"
  | .setValue => "setValue"
  | .element => "element"

/-- The production with this name. -/
def ofName? (s : String) : Option Production := all.find? (·.name == s)

/-- Whether the FIRST or the FOLLOW set depends on const parameters. -/
def dependsOnConstParameters : Production → Bool
  | .formalType | .attributedFormalType | .formalParamList | .formalParams | .attribFormalParams => true
  | _ => false

/-- Whether the FIRST or the FOLLOW set depends on variant records. -/
def dependsOnVariantRecords : Production → Bool
  | .typeExpression | .derivedOrSubrangeType | .range | .enumType | .setType | .countableType | .arrayType
  | .fieldList | .pointerType | .procedureType | .typeDeclarationTail => true
  | _ => false

/-- Whether the FIRST or the FOLLOW set depends on the context. -/
def dependsOnContext (p : Production) : Bool := p.dependsOnConstParameters || p.dependsOnVariantRecords

/-- The list has all productions. -/
theorem mem_all (p : Production) : p ∈ all := by cases p <;> decide

end Production

end Modula
