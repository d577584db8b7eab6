import Modula.Proofs.Tree.ProductionTypes

/-!
# The phrases of an expression

A phrase is a derivation of an expression or of a part of one, as data. It has the symbols that it derives
(`Phrase.symbols`) and a meaning by recursion (`Phrase.meaning`): that of an expression is its tree, which the schema
allows (`Phrase.legal`).
-/

set_option autoImplicit false

namespace Modula

/-! ## The parts of an expression -/

/-- A symbol with a certain token. -/
structure Terminal (t : Token) where
  symbol : Symbol
  token_eq : symbol.token = t

/-- The relations, with the nodes that they make. -/
inductive Relates : Token → NodeType → Prop
  | equal : Relates .equal .equal
  | notEqual : Relates .notEqual .notEqual
  | less : Relates .less .less
  | lessEqual : Relates .lessEqual .lessEqual
  | greater : Relates .greater .greater
  | greaterEqual : Relates .greaterEqual .greaterEqual
  | membership : Relates .kwIn .membership

/-- What operands are joined to. -/
inductive Rank where
  | sum
  | product

/-- The operators that join operands to sums and to products, with the nodes that they make. -/
inductive Joins : Rank → Token → NodeType → Prop
  | plus : Joins .sum .plus .plus
  | minus : Joins .sum .minus .minus
  | disjunction : Joins .sum .kwOr .disjunction
  | times : Joins .product .star .times
  | quotient : Joins .product .slash .quotient
  | integerQuotient : Joins .product .kwDiv .integerQuotient
  | remainder : Joins .product .kwMod .remainder
  | conjunction : Joins .product .kwAnd .conjunction

/-- The literals, with their nodes. -/
inductive Represents : Token → NodeType → Prop
  | integer : Represents .integer .integer
  | real : Represents .real .real
  | character : Represents .char .character
  | string : Represents .string .string

/-- A symbol with the node that it stands for, which is among those of a kind. -/
structure Operator (kind : Token → NodeType → Prop) where
  symbol : Symbol
  type : NodeType
  of_kind : kind symbol.token type

/-- A part of an expression. -/
inductive Part where
  | expression
  | simpleExpression
  /-- A term, which is an operand of a sum, or a simple term, which is an operand of a product. -/
  | operand (rank : Rank)
  /-- What comes after the first operand. -/
  | further (rank : Rank)
  | factor
  | designator
  | selectors
  | arguments
  | setValue
  | element
  /-- One or more of a part, with commas between them. -/
  | separated (item : Part)

/-- A qualified identifier, or a plain one. -/
structure Qualified where
  first : Terminal .ident
  parts : List (Terminal .dot × Terminal .ident)

namespace Qualified

/-- The symbols of a qualified identifier, its points included. -/
def symbols (q : Qualified) : List Symbol := q.first.symbol :: q.parts.flatMap fun p => [p.1.symbol, p.2.symbol]

/-- The names of its parts. -/
def names (q : Qualified) : List String := q.first.symbol.lexeme :: q.parts.map fun p => p.2.symbol.lexeme

end Qualified

/-- A derivation of a part of an expression, in which the type of a set value is a name. -/
inductive Phrase : Part → Type
  | simple (operand : Phrase .simpleExpression) : Phrase .expression
  | relation (left : Phrase .simpleExpression) (operator : Operator Relates)
      (right : Phrase .simpleExpression) : Phrase .expression
  | unsigned (first : Phrase (.operand .sum)) (others : Phrase (.further .sum)) : Phrase .simpleExpression
  | positive (sign : Terminal .plus) (first : Phrase (.operand .sum)) (others : Phrase (.further .sum)) :
      Phrase .simpleExpression
  | negative (sign : Terminal .minus) (first : Phrase (.operand .sum)) (others : Phrase (.further .sum)) :
      Phrase .simpleExpression
  | term (first : Phrase (.operand .product)) (others : Phrase (.further .product)) : Phrase (.operand .sum)
  | plain (factor : Phrase .factor) : Phrase (.operand .product)
  | complement (sign : Terminal .kwNot) (factor : Phrase .factor) : Phrase (.operand .product)
  | last {rank : Rank} : Phrase (.further rank)
  | joined {rank : Rank} (operator : Operator (Joins rank)) (operand : Phrase (.operand rank))
      (others : Phrase (.further rank)) : Phrase (.further rank)
  | literal (value : Operator Represents) : Phrase .factor
  | set (value : Phrase .setValue) : Phrase .factor
  | typedSet (type : Qualified) (value : Phrase .setValue) : Phrase .factor
  | designated (designator : Phrase .designator) : Phrase .factor
  | called (designator : Phrase .designator) (arguments : Phrase .arguments) : Phrase .factor
  | parenthesized (left : Terminal .lparen) (inner : Phrase .expression) (right : Terminal .rparen) : Phrase .factor
  | designator (head : Qualified) (selectors : Phrase .selectors) : Phrase .designator
  | selected : Phrase .selectors
  | dereferenced (caret : Terminal .caret) (others : Phrase .selectors) : Phrase .selectors
  | field (dot : Terminal .dot) (name : Terminal .ident) (others : Phrase .selectors) : Phrase .selectors
  | indexed (left : Terminal .lbracket) (indices : Phrase (.separated .expression)) (right : Terminal .rbracket)
      (others : Phrase .selectors) : Phrase .selectors
  | noArguments (left : Terminal .lparen) (right : Terminal .rparen) : Phrase .arguments
  | arguments (left : Terminal .lparen) (values : Phrase (.separated .expression)) (right : Terminal .rparen) :
      Phrase .arguments
  | noElements (left : Terminal .lbrace) (right : Terminal .rbrace) : Phrase .setValue
  | elements (left : Terminal .lbrace) (values : Phrase (.separated .element)) (right : Terminal .rbrace) :
      Phrase .setValue
  | single (value : Phrase .expression) : Phrase .element
  | range (low : Phrase .expression) (dots : Terminal .dotDot) (high : Phrase .expression) : Phrase .element
  | one {item : Part} (only : Phrase item) : Phrase (.separated item)
  | more {item : Part} (first : Phrase item) (comma : Terminal .comma) (others : Phrase (.separated item)) :
      Phrase (.separated item)

/-! ## What phrases derive and mean -/

/-- A step from a designator to a part of what it designates. -/
inductive Selection where
  | dereference
  | field (name : String)
  | index (indices : List Node)

namespace Selection

/-- The node of a designator with one more selector. -/
def select (designator : Node) : Selection → Node
  | .dereference => .inner .dereference [designator]
  | .field name => .inner .fieldSelection [designator, .leaf .ident [name]]
  | .index indices => .inner .indexing [designator, .inner .arguments indices]

end Selection

/-- The node of a name with parts. -/
def Node.named : List String → Node
  | [name] => .leaf .ident [name]
  | names => .leaf .qualident names

/-- The tree of a designator. The fields right after its name belong to the name; the other selectors are folded to the
left. -/
def Node.designating (names : List String) : List Selection → Node
  | .field name :: others => designating (names ++ [name]) others
  | selections => selections.foldl Selection.select (named names)

/-- The tree of operands joined to a first one from the left. -/
def Node.joined (first : Node) (others : List (NodeType × Node)) : Node :=
  others.foldl (fun left other => .inner other.1 [left, other.2]) first

/-- What the phrases of a part mean: a tree, unless they are several parts in a row. -/
def Part.Meaning : Part → Type
  | .further _ => List (NodeType × Node)
  | .selectors => List Selection
  | .separated item => List item.Meaning
  | .expression | .simpleExpression | .operand _ | .factor | .designator | .arguments | .setValue | .element => Node

namespace Phrase

/-- The symbols that a phrase derives. -/
@[simp] def symbols {p : Part} : Phrase p → List Symbol
  | .simple operand => operand.symbols
  | .relation left operator right => left.symbols ++ operator.symbol :: right.symbols
  | .unsigned first others => first.symbols ++ others.symbols
  | .positive sign first others => sign.symbol :: (first.symbols ++ others.symbols)
  | .negative sign first others => sign.symbol :: (first.symbols ++ others.symbols)
  | .term first others => first.symbols ++ others.symbols
  | .plain factor => factor.symbols
  | .complement sign factor => sign.symbol :: factor.symbols
  | .last => []
  | .joined operator operand others => operator.symbol :: (operand.symbols ++ others.symbols)
  | .literal value => [value.symbol]
  | .set value => value.symbols
  | .typedSet type value => type.symbols ++ value.symbols
  | .designated only => only.symbols
  | .called head values => head.symbols ++ values.symbols
  | .parenthesized left inner right => left.symbol :: (inner.symbols ++ [right.symbol])
  | .designator head selectors => head.symbols ++ selectors.symbols
  | .selected => []
  | .dereferenced caret others => caret.symbol :: others.symbols
  | .field dot name others => dot.symbol :: name.symbol :: others.symbols
  | .indexed left indices right others => left.symbol :: (indices.symbols ++ right.symbol :: others.symbols)
  | .noArguments left right => [left.symbol, right.symbol]
  | .arguments left values right => left.symbol :: (values.symbols ++ [right.symbol])
  | .noElements left right => [left.symbol, right.symbol]
  | .elements left values right => left.symbol :: (values.symbols ++ [right.symbol])
  | .single value => value.symbols
  | .range low dots high => low.symbols ++ dots.symbol :: high.symbols
  | .one only => only.symbols
  | .more first comma others => first.symbols ++ comma.symbol :: others.symbols

/-- What a phrase means. At most one relation is at the top of an expression; sums and products are folded to the left;
a minus sign belongs to the first term and a plus sign leaves no trace, nor do parentheses. -/
def meaning {p : Part} : Phrase p → p.Meaning
  | .simple operand => operand.meaning
  | .relation left operator right => Node.inner operator.type [left.meaning, right.meaning]
  | .unsigned first others => Node.joined first.meaning others.meaning
  | .positive _ first others => Node.joined first.meaning others.meaning
  | .negative _ first others => Node.joined (.inner .negation [first.meaning]) others.meaning
  | .term first others => Node.joined first.meaning others.meaning
  | .plain factor => factor.meaning
  | .complement _ factor => Node.inner .complement [factor.meaning]
  | .last => []
  | .joined operator operand others => (operator.type, operand.meaning) :: others.meaning
  | .literal value => Node.leaf value.type [value.symbol.lexeme]
  | .set value => Node.inner .setValue [value.meaning, .empty]
  | .typedSet type value => Node.inner .setValue [value.meaning, .named type.names]
  | .designated only => only.meaning
  | .called head values => Node.inner .functionCall [head.meaning, values.meaning]
  | .parenthesized _ inner _ => inner.meaning
  | .designator head selectors => Node.designating head.names selectors.meaning
  | .selected => []
  | .dereferenced _ others => Selection.dereference :: others.meaning
  | .field _ name others => Selection.field name.symbol.lexeme :: others.meaning
  | .indexed _ indices _ others => Selection.index indices.meaning :: others.meaning
  | .noArguments _ _ => Node.empty
  | .arguments _ values _ => Node.inner .arguments values.meaning
  | .noElements _ _ => Node.empty
  | .elements _ values _ => Node.inner .elementList values.meaning
  | .single value => value.meaning
  | .range low _ high => Node.inner .range [low.meaning, high.meaning]
  | .one only => [only.meaning]
  | .more first _ others => first.meaning :: others.meaning

/-- The tree of an expression. -/
abbrev tree (e : Phrase .expression) : Node := e.meaning

/-- What several parts in a row mean. -/
abbrev items {item : Part} (e : Phrase (.separated item)) : List item.Meaning := e.meaning

/-- The operators with the operands after them. -/
abbrev links {rank : Rank} (e : Phrase (.further rank)) : List (NodeType × Node) := e.meaning

/-- The steps of a designator. -/
abbrev selections (e : Phrase .selectors) : List Selection := e.meaning

end Phrase

/-! ## Trees are legal -/

/-- What the schema asks of the meaning of a part. -/
def Part.Legal : (p : Part) → p.Meaning → Prop
  | .further _, others => ∀ o : NodeType × Node, o ∈ (show List (NodeType × Node) from others) →
      o.1.shape = .branch [NodeType.expressionSlot, NodeType.expressionSlot] ∧ o.1 ∈ NodeType.expressions ∧
        o.2.type ∈ NodeType.expressions
  | .selectors, selections => ∀ indices, Selection.index indices ∈ (show List Selection from selections) →
      indices ≠ [] ∧ ∀ n ∈ indices, n.type ∈ NodeType.expressions
  | .separated item, parts => (show List item.Meaning from parts) ≠ [] ∧
      ∀ m ∈ (show List item.Meaning from parts), item.Legal m
  | .designator, n => Node.type n ∈ NodeType.designators
  | .arguments, n => Node.type n = .empty ∨ Node.type n = .arguments
  | .setValue, n => Node.type n = .empty ∨ Node.type n = .elementList
  | .element, n => Node.type n ∈ NodeType.expressions ++ [.range]
  | .expression, n | .simpleExpression, n | .operand _, n | .factor, n => Node.type n ∈ NodeType.expressions

/-- A relation makes an expression of two. -/
theorem Relates.legal {t : Token} {type : NodeType} (h : Relates t type) :
    type.shape = .branch [NodeType.expressionSlot, NodeType.expressionSlot] ∧ type ∈ NodeType.expressions := by
  cases h <;> exact ⟨rfl, by decide⟩

/-- An operator between operands makes an expression of two. -/
theorem Joins.legal {rank : Rank} {t : Token} {type : NodeType} (h : Joins rank t type) :
    type.shape = .branch [NodeType.expressionSlot, NodeType.expressionSlot] ∧ type ∈ NodeType.expressions := by
  cases h <;> exact ⟨rfl, by decide⟩

/-- A literal is an expression with a value. -/
theorem Represents.legal {t : Token} {type : NodeType} (h : Represents t type) :
    type.shape = .terminal ∧ type ∈ NodeType.expressions := by
  cases h <;> exact ⟨rfl, by decide⟩

/-- Operands that are joined make an expression. -/
theorem Node.type_joined {first : Node} {others : List (NodeType × Node)} (hfirst : first.type ∈ NodeType.expressions)
    (h : ∀ o ∈ others, o.1 ∈ NodeType.expressions) : (first.joined others).type ∈ NodeType.expressions := by
  induction others generalizing first with
  | nil => exact hfirst
  | cons o others ih => exact ih (h o (by simp)) fun o ho => h o (by simp [ho])

/-- A name is one, qualified or not. -/
theorem Node.type_named (names : List String) : (Node.named names).type ∈ NodeType.typeNames := by
  unfold Node.named
  split <;> simp [Node.type, NodeType.typeNames]

/-- What is selected is a designator. -/
theorem Selection.type_select (n : Node) (s : Selection) : (s.select n).type ∈ NodeType.designators := by
  cases s <;> simp [select, Node.type, NodeType.designators]

/-- So it is after several selections. -/
theorem Node.type_selected {n : Node} (selections : List Selection) (h : n.type ∈ NodeType.designators) :
    (selections.foldl Selection.select n).type ∈ NodeType.designators := by
  induction selections generalizing n with
  | nil => exact h
  | cons s selections ih => exact ih (s.type_select _)

/-- So a designator has the type of one. -/
theorem Node.type_designating (names : List String) (selections : List Selection) :
    (Node.designating names selections).type ∈ NodeType.designators := by
  have hnamed : ∀ names, (Node.named names).type ∈ NodeType.designators := fun names =>
    (by decide : ∀ t ∈ NodeType.typeNames, t ∈ NodeType.designators) _ (Node.type_named names)
  induction selections generalizing names with
  | nil => exact hnamed names
  | cons s selections ih =>
    cases s with
    | field name => exact ih _
    | dereference | index indices => exact Node.type_selected _ (hnamed names)

/-- The meaning of every phrase is legal. -/
theorem Phrase.legal {p : Part} (e : Phrase p) : p.Legal e.meaning := by
  induction e with
  | simple operand ih | plain factor ih => exact ih
  | relation left operator right ihleft ihright => exact operator.of_kind.legal.2
  | unsigned first others ihfirst ihothers | positive sign first others ihfirst ihothers
  | term first others ihfirst ihothers =>
    exact Node.type_joined ihfirst fun o ho => (ihothers o ho).2.1
  | negative sign first others ihfirst ihothers =>
    exact Node.type_joined (by show NodeType.negation ∈ _; decide) fun o ho => (ihothers o ho).2.1
  | complement sign factor ih => show NodeType.complement ∈ _; decide
  | last => exact fun o ho => by cases ho
  | @joined rank operator operand others ihoperand ihothers =>
    rintro o (- | ⟨-, ho⟩)
    · exact ⟨operator.of_kind.legal.1, operator.of_kind.legal.2, ihoperand⟩
    · exact ihothers o ho
  | literal value => exact value.of_kind.legal.2
  | set value ih | typedSet type value ih => show NodeType.setValue ∈ _; decide
  | designated only ih => exact Script.mem_expressions_of_designator ih
  | called head arguments ihhead iharguments => show NodeType.functionCall ∈ _; decide
  | parenthesized left inner right ih => exact ih
  | designator head selectors ih => exact Node.type_designating _ _
  | selected => exact fun indices h => by cases h
  | dereferenced caret others ih | field dot name others ih =>
    rintro indices (- | ⟨-, h⟩)
    exact ih indices h
  | indexed left indices right others ihindices ihothers =>
    rintro found (- | ⟨-, h⟩)
    · exact ihindices
    · exact ihothers found h
  | noArguments left right | noElements left right => exact .inl rfl
  | arguments left values right ih | elements left values right ih => exact .inr rfl
  | single value ih => exact List.mem_append_left _ ih
  | range low dots high ihlow ihhigh => show NodeType.range ∈ _; decide
  | one only ih =>
    refine ⟨List.cons_ne_nil _ _, ?_⟩
    rintro m (- | ⟨-, hm⟩)
    · exact ih
    · cases hm
  | more first comma others ihfirst ihothers =>
    refine ⟨List.cons_ne_nil _ _, ?_⟩
    rintro m (- | ⟨-, hm⟩)
    · exact ihfirst
    · exact ihothers.2 m hm

/-! ## How phrases start -/

/-- The tokens that a factor starts with. -/
def Token.ofFactors : List Token := [.ident, .string, .integer, .real, .char, .lparen, .lbrace]

/-- Whether the phrases of a part can start with a token. Nothing is said of those that may be empty. -/
def Part.CanStart : Part → Token → Prop
  | .expression, t | .simpleExpression, t | .element, t => t ∈ [.plus, .minus, .kwNot] ++ Token.ofFactors
  | .operand _, t => t ∈ .kwNot :: Token.ofFactors
  | .factor, t => t ∈ Token.ofFactors
  | .designator, t => t = .ident
  | .arguments, t => t = .lparen
  | .setValue, t => t = .lbrace
  | .separated item, t => item.CanStart t
  | .further _, _ | .selectors, _ => True

/-- Literals start factors. -/
theorem Represents.starts {t : Token} {type : NodeType} (h : Represents t type) : t ∈ Token.ofFactors := by
  cases h <;> decide

/-- A phrase starts with a token of its part. -/
theorem Phrase.canStart {p : Part} (e : Phrase p) (v : List Symbol) : p.CanStart (firstToken (e.symbols ++ v)) := by
  induction e generalizing v with
  | simple operand ih | single value ih | one only ih => exact ih v
  | relation left operator right ihleft ihright | range left dots right ihleft ihright
  | more left comma others ihleft ihright =>
    rw [symbols, List.append_assoc]
    exact ihleft _
  | unsigned first others ihfirst ihothers =>
    have hfirst := ihfirst (others.symbols ++ v)
    rw [symbols, List.append_assoc]
    simp only [Part.CanStart, List.mem_cons, List.mem_append] at hfirst ⊢
    tauto
  | term first others ihfirst ihothers =>
    rw [symbols, List.append_assoc]
    exact ihfirst _
  | positive sign first others ihfirst ihothers | negative sign first others ihfirst ihothers =>
    simp [Part.CanStart, sign.token_eq]
  | plain factor ih => exact List.mem_cons_of_mem _ (ih v)
  | complement sign factor ih => simp [Part.CanStart, sign.token_eq]
  | literal value => exact value.of_kind.starts
  | set value ih =>
    have hbrace : firstToken (value.symbols ++ v) = .lbrace := ih v
    show firstToken (value.symbols ++ v) ∈ Token.ofFactors
    rw [hbrace]
    decide
  | typedSet type value ih => simp [Qualified.symbols, Part.CanStart, type.first.token_eq, Token.ofFactors]
  | designated only ih =>
    have hident : firstToken (only.symbols ++ v) = .ident := ih v
    show firstToken (only.symbols ++ v) ∈ Token.ofFactors
    rw [hident]
    decide
  | called head values ihhead ihvalues =>
    have hident : firstToken (head.symbols ++ (values.symbols ++ v)) = .ident := ihhead _
    show firstToken (head.symbols ++ values.symbols ++ v) ∈ Token.ofFactors
    rw [List.append_assoc, hident]
    decide
  | parenthesized left inner right ih => simp [Part.CanStart, left.token_eq, Token.ofFactors]
  | designator head selectors ih => simp [Qualified.symbols, Part.CanStart, head.first.token_eq]
  | noArguments left right | arguments left values right ih | noElements left right | elements left values right ih =>
    simp [Part.CanStart, left.token_eq]
  | last | joined operator operand others ihoperand ihothers | selected | dereferenced caret others ih
  | field dot name others ih | indexed left indices right others ihindices ihothers => trivial

end Modula
