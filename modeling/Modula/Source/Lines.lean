/-!
# The lines of a text

Each line end of a text closes a line, and characters after the last line end form one more line, so a final line end
opens no line of its own; a text without characters has one empty line. The places where lines start are found once and
kept in a table of byte offsets, and a line is cut out of the text between its own start and the next one. Lines are
counted from one.
-/

set_option autoImplicit false

namespace Modula

/-- The lines of a text, as the byte offsets at which they start. -/
structure Lines where
  text : String
  starts : Array Nat
deriving DecidableEq

namespace Lines

/-- The starts of lines given, with those after the line ends in the rest of a text of some size, from an offset on. No
line starts at the end of the text. -/
def startsFrom (size : Nat) : (offset : Nat) → (starts : Array Nat) → (rest : List Char) → Array Nat
  | _, starts, [] => starts
  | offset, starts, c :: rest =>
    let next := offset + c.utf8Size
    startsFrom size next (if c = '\n' ∧ next < size then starts.push next else starts) rest

/-- The lines of a text. The first one starts at its start, also if it has no characters. -/
def ofText (text : List Char) : Lines :=
  let whole := String.ofList text
  ⟨whole, startsFrom whole.utf8ByteSize 0 #[0] text⟩

/-- The number of lines. -/
def count (lines : Lines) : Nat := lines.starts.size

/-- The text between two offsets, without a line end at its end. -/
def slice (lines : Lines) (start stop : Nat) : String :=
  let part := String.Pos.Raw.extract lines.text ⟨start⟩ ⟨stop⟩
  if part.endsWith '\n' then (part.dropEnd 1).copy else part

/-- The line with this number, if there is one. The last line ends where the text does. -/
def line? (lines : Lines) : Nat → Option String
  | 0 => none
  | n + 1 => lines.starts[n]?.map fun start => lines.slice start (lines.starts[n + 1]?.getD lines.text.utf8ByteSize)

end Lines

end Modula
