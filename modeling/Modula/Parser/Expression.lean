import Modula.Parser.Basic

/-!
# Expressions and designators

An expression has at most one relation at its top; sums and products associate to the left; a sign in front belongs to
the first term. A designator is a qualified identifier with selectors; followed by arguments it is a function call,
followed by a set value it is the type of that set.
-/

set_option autoImplicit false

namespace Modula.Script

/-- One or more expressions with commas between them. -/
def expressionList : Script (List Node) := do
  enter .expressionList
  separated .comma (call .expression)

/-- Arguments between parentheses, of which there may be none. -/
def actualParameters (ctx : Context) : Script Node := do
  enter .actualParameters
  skip
  let arguments ← if ← starts ctx .expressionList then expressionList else pure []
  unless ← expect .rparen (Production.actualParameters.follow ctx) do return .empty
  list .arguments arguments

/-- A qualified identifier with selectors for dereferencing, fields and indices. -/
def designator (ctx : Context) : Script Node := do
  enter .designator
  let follow := Production.designator.follow ctx
  let first ← qualident ctx
  loop first fun selected => do
    match ← lookahead with
    | .caret =>
      skip
      return .yield (← branch .dereference [selected])
    | .dot =>
      skip
      let field ← identNode (← expectIdent follow)
      return .yield (← branch .fieldSelection [selected, field])
    | .lbracket =>
      skip
      let indices ← expressionList
      unless ← expect .rbracket follow do return .done .empty
      let indices ← list .arguments indices
      return .yield (← branch .indexing [selected, indices])
    | _ => return .done selected

/-- An element of a set: an expression or a range of two. -/
def element : Script Node := do
  enter .element
  let low ← call .expression
  unless ← nextIs .dotDot do return low
  skip
  let high ← call .expression
  branch .range [low, high]

/-- The elements of a set between braces, of which there may be none. -/
def setValue (ctx : Context) : Script Node := do
  enter .setValue
  skip
  let elements ← if ← starts ctx .element then separated .comma element else pure []
  unless ← expect .rbrace (Production.setValue.follow ctx) do return .empty
  list .elementList elements

/-- A designator, or a set value of the type it names, or a call of the function it names. -/
def designatorOrFuncCall (ctx : Context) : Script Node := do
  enter .designatorOrFuncCall
  let head ← designator ctx
  if ← starts ctx .setValue then
    let elements ← setValue ctx
    branch .setValue [elements, head]
  else if ← starts ctx .actualParameters then
    let arguments ← actualParameters ctx
    branch .functionCall [head, arguments]
  else return head

/-- The node type of a literal. -/
def literal? : Token → Option NodeType
  | .integer => some .integer
  | .real => some .real
  | .char => some .character
  | .string => some .string
  | _ => none

/-- A literal, a set value, a designator or call, or an expression between parentheses. -/
def factor (ctx : Context) : Script Node := do
  enter .factor
  match literal? (← lookahead) with
  | some t => terminal t (← accept)
  | none =>
    if ← starts ctx .setValue then
      let elements ← setValue ctx
      branch .setValue [elements, .empty]
    else if ← starts ctx .designatorOrFuncCall then designatorOrFuncCall ctx
    else if ← nextIs .lparen then
      skip
      let inner ← call .expression
      unless ← expect .rparen (Production.factor.follow ctx) do return .empty
      return inner
    else noAlternative ctx .factor

/-- A factor, which may be negated. -/
def simpleTerm (ctx : Context) : Script Node := do
  enter .simpleTerm
  if ← nextIs .kwNot then
    skip
    let operand ← factor ctx
    branch .complement [operand]
  else factor ctx

/-- Operands joined by the operators given, grouped from the left, after a first operand. -/
def leftAssociative (operator? : Token → Option NodeType) (operand : Script Node) (first : Node) : Script Node :=
  loop first fun left => do
    match operator? (← lookahead) with
    | none => return .done left
    | some operator =>
      skip
      let right ← operand
      return .yield (← branch operator [left, right])

/-- The node type of an operator between simple terms. -/
def multiplying? : Token → Option NodeType
  | .star => some .times
  | .slash => some .quotient
  | .kwDiv => some .integerQuotient
  | .kwMod => some .remainder
  | .kwAnd => some .conjunction
  | _ => none

/-- A product of simple terms. -/
def term (ctx : Context) : Script Node := do
  enter .term
  leftAssociative multiplying? (simpleTerm ctx) (← simpleTerm ctx)

/-- The node type of an operator between terms. -/
def adding? : Token → Option NodeType
  | .plus => some .plus
  | .minus => some .minus
  | .kwOr => some .disjunction
  | _ => none

/-- The first term of a sum with the sign in front of it; a plus sign leaves no trace. -/
def signedTerm (ctx : Context) : Script Node := do
  match ← lookahead with
  | .plus =>
    skip
    term ctx
  | .minus =>
    skip
    let operand ← term ctx
    branch .negation [operand]
  | _ => term ctx

/-- A sum of terms. -/
def simpleExpression (ctx : Context) : Script Node := do
  enter .simpleExpression
  leftAssociative adding? (term ctx) (← signedTerm ctx)

/-- The node type of a relation. -/
def relation? : Token → Option NodeType
  | .equal => some .equal
  | .notEqual => some .notEqual
  | .less => some .less
  | .lessEqual => some .lessEqual
  | .greater => some .greater
  | .greaterEqual => some .greaterEqual
  | .kwIn => some .membership
  | _ => none

/-- A simple expression, or a relation between two. -/
def expression (ctx : Context) : Script Node := do
  enter .expression
  let left ← simpleExpression ctx
  match relation? (← lookahead) with
  | none => return left
  | some operator =>
    skip
    let right ← simpleExpression ctx
    branch operator [left, right]

end Modula.Script
