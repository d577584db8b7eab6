/-!
# Line ends

Texts come with three kinds of line ends: a carriage return, a line feed, or the one followed by the other. A source has
line feeds only. The pairs are joined first, then each carriage return that is left becomes a line feed.
-/

set_option autoImplicit false

namespace Modula.LineEnds

/-- Joins each carriage return and line feed to a line feed, after characters already done, last one first. -/
def joinPairsFrom (done : List Char) : List Char → List Char
  | '\r' :: '\n' :: rest => joinPairsFrom ('\n' :: done) rest
  | c :: rest => joinPairsFrom (c :: done) rest
  | [] => done.reverse

/-- Joins each carriage return and line feed to a line feed. -/
def joinPairs (text : List Char) : List Char := joinPairsFrom [] text

/-- Turns each carriage return into a line feed. -/
def replaceReturns (text : List Char) : List Char := text.map fun c => if c = '\r' then '\n' else c

/-- The text with line feeds for all its line ends. -/
def normalize (text : List Char) : List Char := replaceReturns (joinPairs text)

end Modula.LineEnds
