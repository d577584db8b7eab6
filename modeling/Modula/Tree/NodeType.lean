/-!
# Kinds of tree nodes

A node type says which construct of the language a node stands for. The types that hold subnodes come first, those that
hold values last; the empty type stands for an optional part that is absent.
-/

set_option autoImplicit false

namespace Modula

/-- The construct that a tree node stands for. -/
inductive NodeType where
  | empty | root | definitionModule | importList | qualifiedImport | unqualifiedImport | definitionList
  | constDefinition | typeDefinition | procedureHeader | subrange | enumeration | setType | arrayType | recordType
  | pointerType | procedureType | extensibleRecord | variantRecord | indexList | fieldListSequence | fieldList
  | variantFieldListSequence | variantFieldList | variantList | variant | caseLabelList | caseLabels
  | formalTypeList | openArray | constParameter | varParameter | formalParameterList | formalParameters
  | implementationModule | programModule | block | declarationList | typeDeclaration | variableDeclaration
  | procedureDeclaration | moduleDeclaration | varSizeRecord | varSizeField | unqualifiedExport | qualifiedExport
  | statementSequence | assignment | procedureCall | returnStatement | withStatement | ifStatement | caseStatement
  | loopStatement | whileStatement | repeatStatement | forStatement | exitStatement | arguments | elsifList | elsif
  | caseList | caseBranch | elementList | range | fieldSelection | indexing | dereference | negation | complement
  | equal | notEqual | less | lessEqual | greater | greaterEqual | membership | plus | minus | disjunction | times
  | quotient | integerQuotient | remainder | conjunction | functionCall | setValue | ident | qualident | integer
  | real | character | string | identList | filename | settings
deriving DecidableEq, Inhabited, Repr

namespace NodeType

/-- Every node type, in declaration order. -/
def all : List NodeType :=
  [.empty, .root, .definitionModule, .importList, .qualifiedImport, .unqualifiedImport, .definitionList,
   .constDefinition, .typeDefinition, .procedureHeader, .subrange, .enumeration, .setType, .arrayType, .recordType,
   .pointerType, .procedureType, .extensibleRecord, .variantRecord, .indexList, .fieldListSequence, .fieldList,
   .variantFieldListSequence, .variantFieldList, .variantList, .variant, .caseLabelList, .caseLabels,
   .formalTypeList, .openArray, .constParameter, .varParameter, .formalParameterList, .formalParameters,
   .implementationModule, .programModule, .block, .declarationList, .typeDeclaration, .variableDeclaration,
   .procedureDeclaration, .moduleDeclaration, .varSizeRecord, .varSizeField, .unqualifiedExport, .qualifiedExport,
   .statementSequence, .assignment, .procedureCall, .returnStatement, .withStatement, .ifStatement, .caseStatement,
   .loopStatement, .whileStatement, .repeatStatement, .forStatement, .exitStatement, .arguments, .elsifList,
   .elsif, .caseList, .caseBranch, .elementList, .range, .fieldSelection, .indexing, .dereference, .negation,
   .complement, .equal, .notEqual, .less, .lessEqual, .greater, .greaterEqual, .membership, .plus, .minus,
   .disjunction, .times, .quotient, .integerQuotient, .remainder, .conjunction, .functionCall, .setValue, .ident,
   .qualident, .integer, .real, .character, .string, .identList, .filename, .settings]

/-- The place of a node type in declaration order, counted from zero. -/
def index (t : NodeType) : Nat := t.ctorIdx

/-- The node type at a place of the declaration order. -/
def ofIndex? (n : Nat) : Option NodeType := all[n]?

/-- The name of a node type in written trees. -/
def name : NodeType → String
  | .empty => "EMPTY"
  | .root => "ROOT"
  | .definitionModule => "DEFMOD"
  | .importList => "IMPLIST"
  | .qualifiedImport => "IMPORT"
  | .unqualifiedImport => "UNQIMP"
  | .definitionList => "DEFLIST"
  | .constDefinition => "CONSTDEF"
  | .typeDefinition => "TYPEDEF"
  | .procedureHeader => "PROCDEF"
  | .subrange => "SUBR"
  | .enumeration => "ENUM"
  | .setType => "SET"
  | .arrayType => "ARRAY"
  | .recordType => "RECORD"
  | .pointerType => "POINTER"
  | .procedureType => "PROCTYPE"
  | .extensibleRecord => "EXTREC"
  | .variantRecord => "VRNTREC"
  | .indexList => "INDEXLIST"
  | .fieldListSequence => "FIELDLISTSEQ"
  | .fieldList => "FIELDLIST"
  | .variantFieldListSequence => "VFLISTSEQ"
  | .variantFieldList => "VFLIST"
  | .variantList => "VARIANTLIST"
  | .variant => "VARIANT"
  | .caseLabelList => "CLABELLIST"
  | .caseLabels => "CLABELS"
  | .formalTypeList => "FTYPELIST"
  | .openArray => "OPENARRAY"
  | .constParameter => "CONSTP"
  | .varParameter => "VARP"
  | .formalParameterList => "FPARAMLIST"
  | .formalParameters => "FPARAMS"
  | .implementationModule => "IMPMOD"
  | .programModule => "PGMMOD"
  | .block => "BLOCK"
  | .declarationList => "DECLLIST"
  | .typeDeclaration => "TYPEDECL"
  | .variableDeclaration => "VARDECL"
  | .procedureDeclaration => "PROC"
  | .moduleDeclaration => "MODDECL"
  | .varSizeRecord => "VSREC"
  | .varSizeField => "VSFIELD"
  | .unqualifiedExport => "EXPORT"
  | .qualifiedExport => "QUALEXP"
  | .statementSequence => "STMTSEQ"
  | .assignment => "ASSIGN"
  | .procedureCall => "PCALL"
  | .returnStatement => "RETURN"
  | .withStatement => "WITH"
  | .ifStatement => "IF"
  | .caseStatement => "SWITCH"
  | .loopStatement => "LOOP"
  | .whileStatement => "WHILE"
  | .repeatStatement => "REPEAT"
  | .forStatement => "FORTO"
  | .exitStatement => "EXIT"
  | .arguments => "ARGS"
  | .elsifList => "ELSIFSEQ"
  | .elsif => "ELSIF"
  | .caseList => "CASELIST"
  | .caseBranch => "CASE"
  | .elementList => "ELEMLIST"
  | .range => "RANGE"
  | .fieldSelection => "FIELD"
  | .indexing => "INDEX"
  | .dereference => "DEREF"
  | .negation => "NEG"
  | .complement => "NOT"
  | .equal => "EQ"
  | .notEqual => "NEQ"
  | .less => "LT"
  | .lessEqual => "LTEQ"
  | .greater => "GT"
  | .greaterEqual => "GTEQ"
  | .membership => "IN"
  | .plus => "PLUS"
  | .minus => "MINUS"
  | .disjunction => "OR"
  | .times => "ASTERISK"
  | .quotient => "SOLIDUS"
  | .integerQuotient => "DIV"
  | .remainder => "MOD"
  | .conjunction => "AND"
  | .functionCall => "FCALL"
  | .setValue => "SETVAL"
  | .ident => "IDENT"
  | .qualident => "QUALIDENT"
  | .integer => "INTVAL"
  | .real => "REALVAL"
  | .character => "CHRVAL"
  | .string => "QUOTEDVAL"
  | .identList => "IDENTLIST"
  | .filename => "FILENAME"
  | .settings => "OPTIONS"

/-- The node type with this name. -/
def ofName? (s : String) : Option NodeType := all.find? (·.name == s)

end NodeType

end Modula
