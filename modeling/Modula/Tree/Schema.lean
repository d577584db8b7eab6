import Modula.Tree.NodeType

/-!
# The schema of the tree

The schema gives every node type a shape: how many subnodes or values a node of the type holds, and which node types may
stand at each of its places. A node is legal when it fits the shape of its type.
-/

set_option autoImplicit false

namespace Modula

/-- One place of a branch node: the types that may stand there, and whether it may stay empty. -/
structure Slot where
  types : List NodeType
  isOptional : Bool

namespace Slot

/-- A place that one of the types has to fill. -/
def required (types : List NodeType) : Slot := ⟨types, false⟩

/-- A place that one of the types may fill. -/
def optional (types : List NodeType) : Slot := ⟨types, true⟩

/-- Whether a node of this type may stand in the place. -/
def accepts (s : Slot) (t : NodeType) : Bool := (s.isOptional && t == .empty) || s.types.contains t

end Slot

/-- The legal form of the nodes of one type. -/
inductive Shape where
  /-- No content at all. -/
  | empty
  /-- One subnode for each slot. -/
  | branch (slots : List Slot)
  /-- At least so many subnodes, each of one of these types. -/
  | list (least : Nat) (members : List NodeType)
  /-- Exactly one value. -/
  | terminal
  /-- At least so many values. -/
  | terminals (least : Nat)

namespace NodeType

/-- The types that name a type: an identifier, plain or qualified. -/
def typeNames : List NodeType := [.ident, .qualident]

/-- The types of a designator. -/
def designators : List NodeType := [.ident, .qualident, .fieldSelection, .indexing, .dereference]

/-- The types of an expression. -/
def expressions : List NodeType :=
  [.ident, .qualident, .fieldSelection, .indexing, .dereference, .negation, .complement, .equal, .notEqual, .less,
   .lessEqual, .greater, .greaterEqual, .membership, .plus, .minus, .disjunction, .times, .quotient,
   .integerQuotient, .remainder, .conjunction, .functionCall, .setValue, .integer, .real, .character, .string]

/-- The types of a type expression. -/
def typeExpressions : List NodeType :=
  [.ident, .qualident, .subrange, .enumeration, .setType, .arrayType, .recordType, .extensibleRecord, .variantRecord,
   .pointerType, .procedureType]

/-- The types of a type expression with countably many values. -/
def countables : List NodeType := [.ident, .qualident, .subrange, .enumeration]

/-- The types of a formal type without attribute. -/
def simpleFormals : List NodeType := [.ident, .qualident, .openArray]

/-- The types of a statement. -/
def statements : List NodeType :=
  [.assignment, .procedureCall, .returnStatement, .withStatement, .ifStatement, .caseStatement, .loopStatement,
   .whileStatement, .repeatStatement, .forStatement, .exitStatement]

/-- A place for an identifier. -/
def identSlot : Slot := .required [.ident]

/-- A place for an identifier list. -/
def identListSlot : Slot := .required [.identList]

/-- A place for an expression. -/
def expressionSlot : Slot := .required expressions

/-- A place for an expression that may be absent. -/
def optionalExpressionSlot : Slot := .optional expressions

/-- A place for a statement sequence, which may be empty. -/
def statementsSlot : Slot := .optional [.statementSequence]

/-- The shape that the schema gives a node type. -/
def shape : NodeType → Shape
  | .empty => .empty
  | .root => .branch
      [.required [.filename], .required [.settings],
       .required [.definitionModule, .implementationModule, .programModule]]
  | .definitionModule => .branch [identSlot, .optional [.importList], .optional [.definitionList]]
  | .importList => .list 1 [.qualifiedImport, .unqualifiedImport]
  | .qualifiedImport => .branch [identListSlot]
  | .unqualifiedImport => .branch [identSlot, identListSlot]
  | .definitionList => .list 1 [.constDefinition, .typeDefinition, .variableDeclaration, .procedureHeader]
  | .constDefinition => .branch [identSlot, expressionSlot]
  | .typeDefinition => .branch [identSlot, .optional typeExpressions]
  | .procedureHeader => .branch [identSlot, .optional [.formalParameterList], .optional typeNames]
  | .subrange => .branch [expressionSlot, expressionSlot, .optional typeNames]
  | .enumeration => .branch [identListSlot]
  | .setType => .branch [.required countables]
  | .arrayType => .branch [.required [.indexList], .required typeExpressions]
  | .recordType => .branch [.optional [.fieldListSequence]]
  | .pointerType => .branch [.required typeExpressions]
  | .procedureType => .branch [.optional [.formalTypeList], .optional typeNames]
  | .extensibleRecord => .branch [.required typeNames, .optional [.fieldListSequence]]
  | .variantRecord => .branch [.optional [.variantFieldListSequence]]
  | .indexList => .list 1 countables
  | .fieldListSequence => .list 1 [.fieldList]
  | .fieldList => .branch [identListSlot, .required typeExpressions]
  | .variantFieldListSequence => .list 1 [.fieldList, .variantFieldList]
  | .variantFieldList => .branch
      [.optional [.ident], .required typeNames, .optional [.variantList], .optional [.variantFieldListSequence]]
  | .variantList => .list 1 [.variant]
  | .variant => .branch [.required [.caseLabelList], .optional [.variantFieldListSequence]]
  | .caseLabelList => .list 1 [.caseLabels]
  | .caseLabels => .branch [expressionSlot, optionalExpressionSlot]
  | .formalTypeList => .list 1 (simpleFormals ++ [.constParameter, .varParameter])
  | .openArray => .branch [.required typeNames]
  | .constParameter | .varParameter => .branch [.required simpleFormals]
  | .formalParameterList => .list 1 [.formalParameters]
  | .formalParameters => .branch [identListSlot, .required (simpleFormals ++ [.constParameter, .varParameter])]
  | .implementationModule | .programModule => .branch
      [identSlot, optionalExpressionSlot, .optional [.importList], .required [.block]]
  | .block => .branch [.optional [.declarationList], statementsSlot]
  | .declarationList => .list 1
      [.constDefinition, .typeDeclaration, .variableDeclaration, .procedureDeclaration, .moduleDeclaration]
  | .typeDeclaration => .branch [identSlot, .required (typeExpressions ++ [.varSizeRecord])]
  | .variableDeclaration => .branch [identListSlot, .required typeExpressions]
  | .procedureDeclaration => .branch [.required [.procedureHeader], .required [.block]]
  | .moduleDeclaration => .branch
      [identSlot, optionalExpressionSlot, .optional [.importList], .optional [.unqualifiedExport, .qualifiedExport],
       .required [.block]]
  | .varSizeRecord => .branch [.optional [.fieldListSequence], .required [.varSizeField]]
  | .varSizeField => .branch [identSlot, identSlot, .required typeNames]
  | .unqualifiedExport | .qualifiedExport => .branch [identListSlot]
  | .statementSequence => .list 1 statements
  | .assignment => .branch [.required designators, expressionSlot]
  | .procedureCall => .branch [.required designators, .optional [.arguments]]
  | .returnStatement => .branch [optionalExpressionSlot]
  | .withStatement => .branch [.required designators, statementsSlot]
  | .ifStatement => .branch [expressionSlot, statementsSlot, .optional [.elsifList], statementsSlot]
  | .caseStatement => .branch [expressionSlot, .optional [.caseList], statementsSlot]
  | .loopStatement => .branch [statementsSlot]
  | .whileStatement => .branch [expressionSlot, statementsSlot]
  | .repeatStatement => .branch [statementsSlot, expressionSlot]
  | .forStatement => .branch [identSlot, expressionSlot, expressionSlot, optionalExpressionSlot, statementsSlot]
  | .exitStatement => .branch []
  | .arguments => .list 1 expressions
  | .elsifList => .list 1 [.elsif]
  | .elsif => .branch [expressionSlot, statementsSlot]
  | .caseList => .list 1 [.caseBranch]
  | .caseBranch => .branch [.required [.caseLabelList], statementsSlot]
  | .elementList => .list 1 (expressions ++ [.range])
  | .range => .branch [expressionSlot, expressionSlot]
  | .fieldSelection => .branch [.required designators, identSlot]
  | .indexing => .branch [.required designators, .required [.arguments]]
  | .dereference => .branch [.required designators]
  | .negation | .complement => .branch [expressionSlot]
  | .equal | .notEqual | .less | .lessEqual | .greater | .greaterEqual | .membership | .plus | .minus | .disjunction
  | .times | .quotient | .integerQuotient | .remainder | .conjunction => .branch [expressionSlot, expressionSlot]
  | .functionCall => .branch [.required designators, .optional [.arguments]]
  | .setValue => .branch [.optional [.elementList], .optional typeNames]
  | .ident | .integer | .real | .character | .string | .filename => .terminal
  | .qualident => .terminals 2
  | .identList => .terminals 1
  | .settings => .terminals 0

/-- Whether nodes of this type hold values and no subnodes. -/
def isTerminal (t : NodeType) : Bool :=
  match t.shape with
  | .terminal | .terminals _ => true
  | _ => false

/-- Whether nodes of this type hold no values; the empty type is one of these. -/
def isNonterminal (t : NodeType) : Bool := !t.isTerminal

/-- Whether nodes of this type hold an open number of subnodes. -/
def isList (t : NodeType) : Bool :=
  match t.shape with
  | .list _ _ => true
  | _ => false

/-- Whether nodes of this type hold one subnode for each slot. -/
def isBranch (t : NodeType) : Bool :=
  match t.shape with
  | .branch _ => true
  | _ => false

/-- The least and the greatest number of subnodes or values; there is no greatest number of an open list. -/
def countRange (t : NodeType) : Nat × Option Nat :=
  match t.shape with
  | .empty => (0, some 0)
  | .branch slots => (slots.length, some slots.length)
  | .list least _ | .terminals least => (least, none)
  | .terminal => (1, some 1)

/-- Whether a node of this type may hold so many subnodes or values. -/
def allowsCount (t : NodeType) (n : Nat) : Bool :=
  decide (t.countRange.1 ≤ n) && t.countRange.2.all (fun most => decide (n ≤ most))

/-- Whether a node of type `s` may stand at this place of a node of type `t`. -/
def allowsAt (t : NodeType) (i : Nat) (s : NodeType) : Bool :=
  match t.shape with
  | .branch slots => slots[i]?.any (·.accepts s)
  | .list _ members => members.contains s
  | _ => false

end NodeType

end Modula
