/-!
# Terminal symbols of Modula-2

Every token the scanner can produce, in the order in which sets of tokens are written out: the invalid symbol, the
reserved words, identifiers and literals, the special symbols, and the end of the input. A token carries no text; the
text of an occurrence is its lexeme, kept beside it in a symbol.
-/

set_option autoImplicit false

namespace Modula

/-- A terminal symbol of one of the supported dialects. -/
inductive Token where
  | unknown
  | kwAnd | kwArray | kwBegin | kwBy | kwCase | kwConst | kwDefinition | kwDiv | kwDo | kwElse
  | kwElsif | kwEnd | kwExit | kwExport | kwFor | kwFrom | kwIf | kwImplementation | kwImport
  | kwIn | kwLoop | kwMod | kwModule | kwNot | kwOf | kwOr | kwPointer | kwProcedure | kwQualified
  | kwRecord | kwRepeat | kwReturn | kwSet | kwThen | kwTo | kwType | kwUntil | kwVar | kwWhile
  | kwWith
  | ident | string | integer | real | char | malformedString | malformedInteger | malformedReal
  | pragma
  | plus | minus | equal | notEqual | less | lessEqual | greater | greaterEqual | star | slash
  | assign | comma | dot | colon | semicolon | dotDot | caret | bar | lparen | rparen | lbracket
  | rbracket | lbrace | rbrace
  | eof
deriving DecidableEq, Inhabited, Repr

namespace Token

/-- Every token, in declaration order. -/
def all : List Token :=
  [.unknown, .kwAnd, .kwArray, .kwBegin, .kwBy, .kwCase, .kwConst, .kwDefinition, .kwDiv, .kwDo,
   .kwElse, .kwElsif, .kwEnd, .kwExit, .kwExport, .kwFor, .kwFrom, .kwIf, .kwImplementation,
   .kwImport, .kwIn, .kwLoop, .kwMod, .kwModule, .kwNot, .kwOf, .kwOr, .kwPointer, .kwProcedure,
   .kwQualified, .kwRecord, .kwRepeat, .kwReturn, .kwSet, .kwThen, .kwTo, .kwType, .kwUntil,
   .kwVar, .kwWhile, .kwWith, .ident, .string, .integer, .real, .char, .malformedString,
   .malformedInteger, .malformedReal, .pragma, .plus, .minus, .equal, .notEqual, .less, .lessEqual,
   .greater, .greaterEqual, .star, .slash, .assign, .comma, .dot, .colon, .semicolon, .dotDot,
   .caret, .bar, .lparen, .rparen, .lbracket, .rbracket, .lbrace, .rbrace, .eof]

/-- The number of tokens. -/
def count : Nat := 75

/-- The place of a token in declaration order, counted from zero. -/
def index (t : Token) : Nat := t.ctorIdx

/-- The token at a place of the declaration order. -/
def ofIndex? (n : Nat) : Option Token := all[n]?

/-- The spelling of a reserved word. -/
def reservedWord? : Token → Option String
  | .kwAnd => some "AND"
  | .kwArray => some "ARRAY"
  | .kwBegin => some "BEGIN"
  | .kwBy => some "BY"
  | .kwCase => some "CASE"
  | .kwConst => some "CONST"
  | .kwDefinition => some "DEFINITION"
  | .kwDiv => some "DIV"
  | .kwDo => some "DO"
  | .kwElse => some "ELSE"
  | .kwElsif => some "ELSIF"
  | .kwEnd => some "END"
  | .kwExit => some "EXIT"
  | .kwExport => some "EXPORT"
  | .kwFor => some "FOR"
  | .kwFrom => some "FROM"
  | .kwIf => some "IF"
  | .kwImplementation => some "IMPLEMENTATION"
  | .kwImport => some "IMPORT"
  | .kwIn => some "IN"
  | .kwLoop => some "LOOP"
  | .kwMod => some "MOD"
  | .kwModule => some "MODULE"
  | .kwNot => some "NOT"
  | .kwOf => some "OF"
  | .kwOr => some "OR"
  | .kwPointer => some "POINTER"
  | .kwProcedure => some "PROCEDURE"
  | .kwQualified => some "QUALIFIED"
  | .kwRecord => some "RECORD"
  | .kwRepeat => some "REPEAT"
  | .kwReturn => some "RETURN"
  | .kwSet => some "SET"
  | .kwThen => some "THEN"
  | .kwTo => some "TO"
  | .kwType => some "TYPE"
  | .kwUntil => some "UNTIL"
  | .kwVar => some "VAR"
  | .kwWhile => some "WHILE"
  | .kwWith => some "WITH"
  | _ => none

/-- The spelling of a special symbol; a synonym counts for the symbol it stands for. -/
def specialSymbol? : Token → Option String
  | .plus => some "+"
  | .minus => some "-"
  | .equal => some "="
  | .notEqual => some "#"
  | .less => some "<"
  | .lessEqual => some "<="
  | .greater => some ">"
  | .greaterEqual => some ">="
  | .star => some "*"
  | .slash => some "/"
  | .assign => some ":="
  | .comma => some ","
  | .dot => some "."
  | .colon => some ":"
  | .semicolon => some ";"
  | .dotDot => some ".."
  | .caret => some "^"
  | .bar => some "|"
  | .lparen => some "("
  | .rparen => some ")"
  | .lbracket => some "["
  | .rbracket => some "]"
  | .lbrace => some "\x7b"
  | .rbrace => some "\x7d"
  | _ => none

/-- The one spelling of a reserved word or special symbol. -/
def spelling? (t : Token) : Option String := t.reservedWord?.or t.specialSymbol?

/-- All tokens but the invalid one are valid input. -/
def isValid (t : Token) : Bool := t != .unknown

/-- Whether the token is a reserved word. -/
def isReservedWord (t : Token) : Bool := t.reservedWord?.isSome

/-- Whether the token is an operator or a punctuation mark. -/
def isSpecialSymbol (t : Token) : Bool := t.specialSymbol?.isSome

/-- Whether the token is a well-formed literal. -/
def isLiteral : Token → Bool
  | .string | .integer | .real | .char => true
  | _ => false

/-- Whether the token is a literal that broke a rule of well-formedness. -/
def isMalformedLiteral : Token → Bool
  | .malformedString | .malformedInteger | .malformedReal => true
  | _ => false

/-- The literal that a malformed literal was meant to be, and any other token itself: the scanner has reported the
malformation already, so the parser takes the literal as well-formed. -/
def wellFormed : Token → Token
  | .malformedString => .string
  | .malformedInteger => .integer
  | .malformedReal => .real
  | t => t

/-- The name of a token in messages: words as they are, special symbols in quotes, all else described. -/
def name (t : Token) : String :=
  match t.reservedWord?, t.specialSymbol? with
  | some word, _ => word
  | none, some symbol => "'" ++ symbol ++ "'"
  | none, none =>
    match t with
    | .ident => "identifier"
    | .string => "string literal"
    | .integer => "integer literal"
    | .real => "real literal"
    | .char => "character code literal"
    | .malformedString => "malformed string literal"
    | .malformedInteger => "malformed integer literal"
    | .malformedReal => "malformed real literal"
    | .pragma => "pragma"
    | .eof => "end of file"
    | _ => "unknown token"

/-- The group a token belongs to, as syntax errors name it. -/
def category (t : Token) : String :=
  if t.isReservedWord then "reserved word"
  else if t.isLiteral then "literal"
  else if t.isMalformedLiteral then "malformed literal"
  else if t.isSpecialSymbol then "special symbol"
  else
    match t with
    | .ident => "identifier"
    | .pragma => "pragma"
    | .eof => "end of file"
    | _ => "unknown token"

/-- The tag that stands for a token in logs and written sets. -/
def tag (t : Token) : String :=
  match t.reservedWord? with
  | some word => word ++ "_KW"
  | none =>
    match t with
    | .ident => "IDENT"
    | .string => "STRING"
    | .integer => "INTEGER"
    | .real => "REAL"
    | .char => "CHAR"
    | .malformedString => "MALFORMED_STRING"
    | .malformedInteger => "MALFORMED_INTEGER"
    | .malformedReal => "MALFORMED_REAL"
    | .pragma => "PRAGMA"
    | .plus => "PLUS"
    | .minus => "MINUS"
    | .equal => "EQ"
    | .notEqual => "NOT_EQ"
    | .less => "LT"
    | .lessEqual => "LT_EQ"
    | .greater => "GT"
    | .greaterEqual => "GT_EQ"
    | .star => "STAR"
    | .slash => "SLASH"
    | .assign => "COLON_EQ"
    | .comma => "COMMA"
    | .dot => "DOT"
    | .colon => "COLON"
    | .semicolon => "SEMICOLON"
    | .dotDot => "DOT_DOT"
    | .caret => "CARET"
    | .bar => "PIPE"
    | .lparen => "L_PAREN"
    | .rparen => "R_PAREN"
    | .lbracket => "L_BRACKET"
    | .rbracket => "R_BRACKET"
    | .lbrace => "L_BRACE"
    | .rbrace => "R_BRACE"
    | .eof => "EOF"
    | _ => "UNKNOWN"

/-- The token that a tag stands for. -/
def ofTag? (s : String) : Option Token := all.find? (·.tag == s)

/-- The reserved word with this spelling; letters match only in their own case. -/
def ofReservedWord? (s : String) : Option Token := all.find? (·.reservedWord? == some s)

/-- A text's first characters that take up exactly this many bytes, if some do. -/
def bytePrefix? : Nat → List Char → Option (List Char)
  | 0, _ => some []
  | _ + 1, [] => none
  | n + 1, c :: rest =>
    if c.utf8Size ≤ n + 1 then (bytePrefix? (n + 1 - c.utf8Size) rest).map (c :: ·) else none

/-- The reserved word spelled by the first `bytes` bytes of a text; none if they end inside a character or beyond
the text. -/
def reservedWordAt? (text : String) (bytes : Nat) : Option Token :=
  (bytePrefix? bytes text.toList).bind fun word => ofReservedWord? (String.ofList word)

/-- The list has all tokens. -/
theorem mem_all (t : Token) : t ∈ all := by cases t <;> decide

/-- Each token is at its index. -/
theorem getElem?_all_index (t : Token) : all[t.index]? = some t := by cases t <;> rfl

/-- No index is beyond the number of tokens. -/
theorem index_lt_count (t : Token) : t.index < count := by cases t <;> decide

/-- Every place of the declaration order is that of a token. -/
theorem exists_index {i : Nat} (hi : i < count) : ∃ t : Token, t.index = i := by
  have hall : ∀ j : Fin count, ∃ t ∈ all, t.index = j.val := by decide +kernel
  obtain ⟨t, -, ht⟩ := hall ⟨i, hi⟩
  exact ⟨t, ht⟩

/-- No two tokens have the same index. -/
theorem index_injective {t u : Token} (h : t.index = u.index) : t = u := by
  have ht := getElem?_all_index t
  rw [h, getElem?_all_index u] at ht
  exact (Option.some.inj ht).symm

end Token

end Modula
