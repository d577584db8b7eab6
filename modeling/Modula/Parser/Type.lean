import Modula.Parser.Basic

/-!
# Types and formal parameters

A type is named or built: subranges, enumerations, sets, arrays, records, pointers and procedure types. Records have
variant parts or can be extended, as the context says. Formal parameters are lists of identifiers with a formal type and
an attribute.
-/

set_option autoImplicit false

namespace Modula.Script

/-- The bounds of a subrange between brackets. -/
def range (ctx : Context) : Script (Option (Node × Node)) := do
  enter .range
  let follow := Production.range.follow ctx
  unless ← expect .lbracket follow do return none
  let low ← call .expression
  unless ← expect .dotDot follow do return none
  let high ← call .expression
  unless ← expect .rbracket follow do return none
  return some (low, high)

/-- A subrange of a base type, which is empty if none is named. -/
def subrange (ctx : Context) (base : Node) : Script Node := do
  let some (low, high) ← range ctx | return .empty
  branch .subrange [low, high, base]

/-- A named type, or a subrange of it if bounds come next. -/
def namedOrSubrange (ctx : Context) : Script Node := do
  let base ← qualident ctx
  if ← nextIs .lbracket then subrange ctx base else return base

/-- A named type, a subrange of it, or a subrange without a base type. -/
def derivedOrSubrangeType (ctx : Context) : Script Node := do
  enter .derivedOrSubrangeType
  if ← nextIs .ident then namedOrSubrange ctx else subrange ctx .empty

/-- The identifiers of an enumeration between parentheses. -/
def enumType (ctx : Context) : Script Node := do
  enter .enumType
  skip
  let values ← identList ctx
  unless ← expect .rparen (Production.enumType.follow ctx) do return .empty
  branch .enumeration [values]

/-- A type with countably many values: a subrange, an enumeration or a named type. -/
def countableType (ctx : Context) : Script Node := do
  enter .countableType
  if ← starts ctx .range then subrange ctx .empty
  else if ← starts ctx .enumType then enumType ctx
  else if ← starts ctx .qualident then namedOrSubrange ctx
  else noAlternative ctx .countableType

/-- A set over a countable type. -/
def setType (ctx : Context) : Script Node := do
  enter .setType
  skip
  unless ← expect .kwOf (Production.setType.follow ctx) do return .empty
  let base ← countableType ctx
  branch .setType [base]

/-- An array with one index type or more. -/
def arrayType (ctx : Context) : Script Node := do
  enter .arrayType
  skip
  let indices ← separated .comma (countableType ctx)
  unless ← expect .kwOf (Production.arrayType.follow ctx) do return .empty
  let indices ← list .indexList indices
  let element ← call .typeExpression
  branch .arrayType [indices, element]

/-- Fields of one type. -/
def fieldList (ctx : Context) : Script Node := do
  enter .fieldList
  unless ← starts ctx .fieldList do return ← noAlternative ctx .fieldList
  let idents ← identList ctx
  unless ← expect .colon (Production.fieldList.follow ctx) do return .empty
  let type ← call .typeExpression
  branch .fieldList [idents, type]

/-- Field lists with semicolons between them; none at all is warned of. -/
def fieldLists (follow : TokenSet) (item : Script Node) : Script (List Node) := do
  if follow.contains (← lookahead) then
    act (.warnNext .emptyFields)
    return []
  semicolonSeparated follow .semicolonAfterFields item

/-- The field lists of a record without variants. -/
def fieldListSequence (ctx : Context) : Script Node := do
  enter .fieldListSequence
  list .fieldListSequence (← fieldLists (Production.fieldListSequence.follow ctx) (fieldList ctx))

/-- A record that may extend another one. -/
def extensibleRecordType (ctx : Context) : Script Node := do
  enter .extensibleRecordType
  let follow := Production.extensibleRecordType.follow ctx
  skip
  if ← nextIs .lparen then
    skip
    let base ← qualident ctx
    unless ← expect .rparen follow do return .empty
    let fields ← fieldListSequence ctx
    unless ← expect .kwEnd follow do return .empty
    branch .extensibleRecord [base, fields]
  else
    let fields ← fieldListSequence ctx
    unless ← expect .kwEnd follow do return .empty
    branch .recordType [fields]

/-- Fields of one type, or variant fields. -/
def variantFieldList (ctx : Context) : Script Node := do
  enter .variantFieldList
  if ← starts ctx .fieldList then fieldList ctx
  else if ← starts ctx .variantFields then call .variantFields
  else noAlternative ctx .variantFieldList

/-- The field lists of a record with variants, those that are empty left out. -/
def variantFieldListSeq (ctx : Context) : Script (List Node) := do
  enter .variantFieldListSeq
  let fields ← fieldLists (Production.variantFieldListSeq.follow ctx) (variantFieldList ctx)
  return fields.filter (!·.isEmpty)

/-- A record that may have variants; without any it is a plain record. -/
def variantRecordType (ctx : Context) : Script Node := do
  enter .variantRecordType
  skip
  let fields ← variantFieldListSeq ctx
  unless ← expect .kwEnd (Production.variantRecordType.follow ctx) do return .empty
  if fields.all (·.type = .fieldList) then
    let fields ← list .fieldListSequence fields
    branch .recordType [fields]
  else
    let fields ← list .variantFieldListSequence fields
    branch .variantRecord [fields]

/-- The values of one case: an expression or a range of two. -/
def caseLabels : Script Node := do
  enter .caseLabels
  let low ← call .expression
  if ← nextIs .dotDot then
    skip
    let high ← call .expression
    branch .caseLabels [low, high]
  else branch .caseLabels [low, .empty]

/-- One or more case labels with commas between them. -/
def caseLabelList : Script Node := do
  enter .caseLabelList
  list .caseLabelList (← separated .comma caseLabels)

/-- The fields that a record has in one case. -/
def variant (ctx : Context) : Script Node := do
  enter .variant
  let labels ← caseLabelList
  unless ← expect .colon (Production.variant.follow ctx) do return .empty
  let fields ← list .variantFieldListSequence (← variantFieldListSeq ctx)
  branch .variant [labels, fields]

/-- Fields that depend on the value of a tag. -/
def variantFields (ctx : Context) : Script Node := do
  enter .variantFields
  let follow := Production.variantFields.follow ctx
  skip
  let tag ← if ← nextIs .ident then terminal .ident (← accept) else pure .empty
  unless ← expect .colon follow do return .empty
  let tagType ← qualident ctx
  unless ← expect .kwOf follow do return .empty
  let variants ← barred ctx .variant (variant ctx)
  let otherwise ←
    if ← nextIs .kwElse then do
      skip
      list .variantFieldListSequence (← variantFieldListSeq ctx)
    else pure .empty
  unless ← expect .kwEnd follow do return .empty
  let variants ← list .variantList variants
  branch .variantFieldList [tag, tagType, variants, otherwise]

/-- A pointer to values of a type. -/
def pointerType (ctx : Context) : Script Node := do
  enter .pointerType
  skip
  unless ← expect .kwTo (Production.pointerType.follow ctx) do return .empty
  let target ← call .typeExpression
  branch .pointerType [target]

/-- A named type, or an open array of one. -/
def simpleFormalType (ctx : Context) : Script Node := do
  enter .simpleFormalType
  unless ← nextIs .kwArray do return ← qualident ctx
  skip
  unless ← expect .kwOf (Production.simpleFormalType.follow ctx) do return .empty
  let element ← qualident ctx
  branch .openArray [element]

/-- Accepts the attribute of a formal parameter and yields its node type. -/
def passing : Script NodeType := do
  let type := if ← nextIs .kwConst then NodeType.constParameter else NodeType.varParameter
  skip
  return type

/-- A formal type with an attribute. -/
def attributedFormalType (ctx : Context) : Script Node := do
  enter .attributedFormalType
  let passing ← passing
  let type ← simpleFormalType ctx
  branch passing [type]

/-- The type of a formal parameter, with or without an attribute. -/
def formalType (ctx : Context) : Script Node := do
  enter .formalType
  if ← starts ctx .simpleFormalType then simpleFormalType ctx
  else if ← starts ctx .attributedFormalType then attributedFormalType ctx
  else noAlternative ctx .formalType

/-- The result type after a colon, or the empty node if there is no colon. -/
def resultType (ctx : Context) : Script Node := do
  unless ← nextIs .colon do return .empty
  skip
  qualident ctx

/-- The type of procedures with given formal types and result. -/
def procedureType (ctx : Context) : Script Node := do
  enter .procedureType
  let follow := Production.procedureType.follow ctx
  skip
  let formals ←
    if ← nextIs .lparen then do
      skip
      let formals ← if ← starts ctx .formalType then separated .comma (formalType ctx) else pure []
      unless ← expect .rparen (follow.insert .colon) do
        unless ← nextIs .colon do return .empty
      pure formals
    else pure []
  let result ← resultType ctx
  let formals ← list .formalTypeList formals
  branch .procedureType [formals, result]

/-- Any type. -/
def typeExpression (ctx : Context) : Script Node := do
  enter .typeExpression
  if ← starts ctx .derivedOrSubrangeType then derivedOrSubrangeType ctx
  else if ← starts ctx .enumType then enumType ctx
  else if ← starts ctx .setType then setType ctx
  else if ← starts ctx .arrayType then arrayType ctx
  else if ← nextIs .kwRecord then
    if ctx.variantRecords then variantRecordType ctx else extensibleRecordType ctx
  else if ← starts ctx .pointerType then pointerType ctx
  else if ← starts ctx .procedureType then procedureType ctx
  else noAlternative ctx .typeExpression

/-- Formal parameters of one type, under an attribute if one is given. -/
def simpleFormalParams (ctx : Context) (passing : Option NodeType) : Script Node := do
  enter .simpleFormalParams
  let idents ← identList ctx
  unless ← expect .colon (Production.simpleFormalParams.follow ctx) do return .empty
  let type ← simpleFormalType ctx
  let type ←
    match passing with
    | some passing => branch passing [type]
    | none => pure type
  branch .formalParameters [idents, type]

/-- Formal parameters of one type, with or without an attribute. -/
def formalParams (ctx : Context) : Script Node := do
  enter .formalParams
  if ← starts ctx .simpleFormalParams then simpleFormalParams ctx none
  else if ← starts ctx .attribFormalParams then do
    enter .attribFormalParams
    let passing ← passing
    simpleFormalParams ctx (some passing)
  else noAlternative ctx .formalParams

/-- Formal parameters with semicolons between them. -/
def formalParamList (ctx : Context) : Script Node := do
  enter .formalParamList
  let params ←
    semicolonSeparated (Production.formalParamList.follow ctx) .semicolonAfterParameters (formalParams ctx)
  list .formalParameterList params

/-- The name of a procedure with its formal parameters and its result type. -/
def procedureSignature (ctx : Context) : Script Node := do
  enter .procedureSignature
  let follow := Production.procedureSignature.follow ctx
  let some name ← expectIdent follow | return .empty
  let name ← terminal .ident name
  unless ← nextIs .lparen do return ← branch .procedureHeader [name, .empty, .empty]
  skip
  let params ← if ← starts ctx .formalParamList then formalParamList ctx else pure .empty
  unless ← expect .rparen follow do return .empty
  let result ← resultType ctx
  branch .procedureHeader [name, params, result]

/-- The header of a procedure. -/
def procedureHeader (ctx : Context) : Script Node := do
  enter .procedureHeader
  skip
  procedureSignature ctx

end Modula.Script
