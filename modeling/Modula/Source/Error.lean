import Modula.Text.Utf8

/-!
# Errors of the source

A source can be refused before any symbol is read: the file cannot be read, is too large, or has too many lines. The
only error of a source in use is to ask for a lexeme where none was marked.
-/

set_option autoImplicit false

namespace Modula

/-- Why a file that is there cannot be read as a text. -/
inductive ReadFault where
  | isDirectory
  | notDirectory
  | zeroInName
  | nameTooLong
  | notUtf8 (fault : Text.Utf8Fault)
deriving DecidableEq, Repr

/-- A fault in words. -/
def ReadFault.message : ReadFault → String
  | .isDirectory => "Is a directory (os error 21)"
  | .notDirectory => "Not a directory (os error 20)"
  | .zeroInName => "file name contained an unexpected NUL byte"
  | .nameTooLong => "File name too long (os error 36)"
  | .notUtf8 fault => fault.message

/-- An error at the boundary of the source. -/
inductive SourceError where
  | notFound (path : String)
  | tooLarge (path : String) (size : Nat)
  | tooManyLines (path : String) (lines : Nat)
  | unreadable (path : String) (fault : ReadFault)
  | noMark
deriving DecidableEq, Repr

namespace SourceError

/-- The greatest size of a source in bytes. -/
def maxSize : Nat := 260000

/-- The greatest number of lines of a source. -/
def maxLines : Nat := 64000

/-- An error in words. -/
def message : SourceError → String
  | .notFound path => "file not found: " ++ path
  | .tooLarge path size =>
    "file too large: " ++ path ++ " has " ++ toString size ++ " bytes, limit is " ++ toString maxSize
  | .tooManyLines path lines =>
    "too many lines: " ++ path ++ " has " ++ toString lines ++ " lines, limit is " ++ toString maxLines
  | .unreadable path fault => "I/O error reading " ++ path ++ ": " ++ fault.message
  | .noMark => "no lexeme mark set"

/-- Whether the error keeps a parse from starting. -/
def isFatal (e : SourceError) : Bool := e != .noMark

end SourceError

end Modula
