import Modula.Parser.Script

/-!
# Common parts of productions

Here are the scripts that productions are made of: looking ahead, demanding a token, skipping to a set of tokens after
an error, building nodes, and sequences of items with a separator. When a demanded token is missing, the next symbol
is reported and the parser skips to a symbol that it can go on with.
-/

set_option autoImplicit false

namespace Modula.Script

/-- The next token. -/
def lookahead : Script Token := act .lookahead

/-- Accepts the next symbol and yields its lexeme. -/
def accept : Script String := act .accept

/-- Accepts the next symbol. -/
def skip : Script Unit := do let _ ← accept

/-- Notes that a production is entered. -/
def enter (p : Production) : Script Unit := act (.enter p)

/-- Whether the next token can start the production. -/
def starts (ctx : Context) (p : Production) : Script Bool := do return (p.first ctx).contains (← lookahead)

/-- Whether the next token is this one. -/
def nextIs (t : Token) : Script Bool := do return (← lookahead) = t

/-- Skips symbols until the next one is in the set or the input ends. -/
def skipTo (set : TokenSet) : Script Unit := do
  let skipped ← loop 0 fun n => do
    let t ← lookahead
    if set.contains t || t = .eof then return .done n
    skip
    return .yield (n + 1)
  act (.skipped skipped)

/-- Accepts the token and yields its lexeme; if another token is next, reports that and skips to the set. -/
def demand (t : Token) (resume : TokenSet) : Script (Option String) := do
  if ← nextIs t then return some (← accept)
  act (.reject (.token t))
  skipTo resume
  return none

/-- Demands the token and tells whether it was there. -/
def expect (t : Token) (resume : TokenSet) : Script Bool := do return (← demand t resume).isSome

/-- Demands an identifier and yields it. -/
def expectIdent (resume : TokenSet) : Script (Option String) := demand .ident resume

/-- Reports that nothing the production can start with is next, and skips to what can follow it. -/
def noAlternative (ctx : Context) (p : Production) : Script Node := do
  act (.reject (.ofSet (p.first ctx)))
  skipTo (p.follow ctx)
  return .empty

/-- Builds a node with one subnode for each slot. -/
def branch (t : NodeType) (ns : List Node) : Script Node := act (.build (Node.ofBranch t ns))

/-- Builds a list of the nodes that are not empty; without any, the list is absent. -/
def list (t : NodeType) (ns : List Node) : Script Node :=
  match ns.filter (!·.isEmpty) with
  | [] => return .empty
  | present => act (.build (Node.ofList t present))

/-- Builds a node with one value. -/
def terminal (t : NodeType) (value : String) : Script Node := act (.build (Node.ofValue t value))

/-- Builds a node with values; without any, the node is absent. -/
def terminals (t : NodeType) (values : List String) : Script Node :=
  if values.isEmpty then return .empty else act (.build (Node.ofValues t values))

/-- The node of an identifier, or the empty node if the identifier is missing. -/
def identNode : Option String → Script Node
  | some ident => terminal .ident ident
  | none => return .empty

/-- One or more items with the token between them. -/
def separated {α : Type} (separator : Token) (item : Script α) : Script (List α) := do
  let first ← item
  let items ← loop [first] fun items => do
    unless ← nextIs separator do return .done items
    skip
    return .yield ((← item) :: items)
  return items.reverse

/-- Items that the production derives, each of which may be absent, with bars between them. -/
def barred (ctx : Context) (p : Production) (item : Script Node) : Script (List Node) := do
  let items ← loop [] fun items => do
    let items ← if ← starts ctx p then pure ((← item) :: items) else pure items
    unless ← nextIs .bar do return .done items
    skip
    return .yield items
  return items.reverse

/-- One or more items with semicolons between them; one semicolon before a token of the set is warned of and passed. -/
def semicolonSeparated (follow : TokenSet) (errant : Code) (item : Script Node) : Script (List Node) := do
  let first ← item
  let items ← loop [first] fun items => do
    unless ← nextIs .semicolon do return .done items
    skip
    if follow.contains (← lookahead) then
      act (.warnAccepted errant)
      return .done items
    return .yield ((← item) :: items)
  return items.reverse

/-- Items for as long as the next token can start the production. -/
def whileStarts {α : Type} (ctx : Context) (p : Production) (item : Script α) : Script (List α) := do
  let items ← loop [] fun items => do
    unless ← starts ctx p do return .done items
    return .yield ((← item) :: items)
  return items.reverse

/-- Reports a closing identifier that differs from the opening one, if both are there. -/
def checkClosing : (opening closing : Option String) → Script Unit
  | some opening, some closing => if opening = closing then pure () else act (.rejectClosing closing)
  | _, _ => pure ()

/-- One or more identifiers with commas between them. -/
def identList (ctx : Context) : Script Node := do
  enter .identList
  let idents ← separated .comma (expectIdent ((Production.identList.follow ctx).insert .comma))
  terminals .identList (idents.filterMap id)

/-- An identifier and the parts that qualify it; a point belongs to it only if an identifier comes next. -/
def qualident (ctx : Context) : Script Node := do
  enter .qualident
  let some first ← expectIdent (Production.qualident.follow ctx) | return .empty
  let parts ← loop [first] fun parts => do
    unless ← act .qualifies do return .done parts
    skip
    return .yield ((← accept) :: parts)
  match parts with
  | [ident] => terminal .ident ident
  | _ => terminals .qualident parts.reverse

end Modula.Script
