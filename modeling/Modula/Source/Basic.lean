import Modula.Source.Error
import Modula.Source.LineEnds
import Modula.Source.Lines
import Modula.Text.Position

/-!
# Sources

A source is a text with a reading point. It hands out characters one at a time, with the next two in view, and keeps
the position and the byte offset of the reading point. Beyond the end it shows an end mark; the same character may
also stand in the text, where it is a character like any other. The start of a lexeme can be marked, and the text read
since then taken.
-/

set_option autoImplicit false

namespace Modula

/-- A text with a reading point. -/
structure Source where
  filename : String
  lines : Lines
  /-- The number of characters of the whole text. -/
  length : Nat
  /-- The characters before the reading point, last one first. -/
  passed : List Char
  /-- The characters from the reading point on. -/
  rest : List Char
  /-- The number of bytes before the reading point. -/
  offset : Nat
  /-- The position of the next character. -/
  position : Position
  /-- The offset of the marked start of a lexeme. -/
  mark : Option Nat

namespace Source

/-- The character shown beyond the end of a text. -/
def endMark : Char := '\x04'

/-- A source at the start of a text whose line ends are line feeds. -/
def ofNormalized (filename : String) (text : List Char) : Source :=
  { filename := filename, lines := .ofText text, length := text.length, passed := [], rest := text, offset := 0,
    position := .start, mark := none }

/-- A source at the start of a text, unless the text is too large or has too many lines. -/
def ofText (filename : String) (text : String) : Except SourceError Source :=
  if SourceError.maxSize < text.utf8ByteSize then .error (.tooLarge filename text.utf8ByteSize)
  else
    let s := ofNormalized filename (LineEnds.normalize text.toList)
    if SourceError.maxLines < s.lines.count then .error (.tooManyLines filename s.lines.count) else .ok s

/-- Whether every character has been read. -/
def atEnd (s : Source) : Bool := s.rest.isEmpty

/-- The next character. -/
def next (s : Source) : Char := s.rest.headD endMark

/-- The character after the next one. -/
def second (s : Source) : Char := s.rest.tail.headD endMark

/-- The source after reading one character; at the end, reading changes nothing. -/
def read (s : Source) : Source :=
  match s.rest with
  | [] => s
  | c :: rest =>
    { s with
      passed := c :: s.passed
      rest := rest
      offset := s.offset + c.utf8Size
      position := s.position.after c }

/-- The source after reading so many characters. -/
def advance (s : Source) : Nat → Source
  | 0 => s
  | n + 1 => s.read.advance n

/-- The source with the next character marked as the start of a lexeme. -/
def markLexeme (s : Source) : Source := { s with mark := some s.offset }

/-- The characters from one offset up to another, given those before the second, last one first, in front of a text. -/
def gather (start : Nat) : (stop : Nat) → (before : List Char) → (text : List Char) → List Char
  | stop, c :: before, text =>
    if start < stop then gather start (stop - c.utf8Size) before (c :: text) else text
  | _, [], text => text

/-- The text from an offset up to the reading point. -/
def textSince (s : Source) (start : Nat) : String := String.ofList (gather start s.offset s.passed [])

/-- The text read since the mark, and the source without the mark. Without a mark, or with nothing read since, there is
no lexeme and the source stays as it was. -/
def takeLexeme (s : Source) : Except SourceError (String × Source) :=
  match s.mark with
  | none => .error .noMark
  | some start =>
    if start < s.offset then .ok (s.textSince start, { s with mark := none }) else .error .noMark

/-- The source line with this number. -/
def line? (s : Source) (n : Nat) : Option String := s.lines.line? n

end Source

end Modula
