/-!
# Positions in a text

A position is a line and a column, both counted from one, as an editor shows them. Positions are ordered by line, then
by column, which is the order in which a reader meets them.
-/

set_option autoImplicit false

namespace Modula

/-- A line and a column, both counted from one. -/
structure Position where
  line : Nat
  column : Nat
deriving DecidableEq, Repr

namespace Position

/-- The position of the first character of a text. -/
def start : Position := ⟨1, 1⟩

instance : Inhabited Position := ⟨start⟩

/-- The order of reading: by line, then by column. -/
def compare (p q : Position) : Ordering := (Ord.compare p.line q.line).then (Ord.compare p.column q.column)

instance : Ord Position := ⟨compare⟩

/-- The position after a character: a line end leads to the next line, any other character to the next column. -/
def after (p : Position) (c : Char) : Position :=
  if c = '\n' then ⟨p.line + 1, 1⟩ else ⟨p.line, p.column + 1⟩

/-- The position after a run of characters. -/
def afterAll (p : Position) (cs : List Char) : Position := cs.foldl after p

/-- A position as messages name it. -/
def text (p : Position) : String := "line " ++ toString p.line ++ ", column " ++ toString p.column

end Position

/-- A range of lines, both ends included. -/
structure LineRange where
  first : Nat
  last : Nat
deriving DecidableEq, Repr

namespace LineRange

/-- Whether a line falls within the range. -/
def contains (r : LineRange) (line : Nat) : Bool := decide (r.first ≤ line) && decide (line ≤ r.last)

/-- A range as messages name it: a single line when its ends agree. -/
def text (r : LineRange) : String :=
  if r.first = r.last then "line " ++ toString r.first
  else "lines " ++ toString r.first ++ "-" ++ toString r.last

end LineRange

end Modula
