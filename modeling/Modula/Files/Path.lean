import Modula.Parser.Module

/-!
# Paths

A path is a row of names with slashes between them. The kind of unit that a file holds is told by the extension of its
name: the part after the last point, if something stands before that point.
-/

set_option autoImplicit false

namespace Modula.Path

/-- The pieces between the slashes of a path, after a piece of which the characters are given last one first. -/
def piecesFrom (before : List Char) : List Char → List (List Char)
  | [] => [before.reverse]
  | c :: rest => if c = '/' then before.reverse :: piecesFrom [] rest else piecesFrom (c :: before) rest

/-- The pieces between the slashes of a path. -/
def pieces (path : String) : List String := (piecesFrom [] path.toList).map String.ofList

/-- The name that a path ends with; none if it leads to the directory itself or above it. -/
def fileName? (path : String) : Option String :=
  match ((pieces path).filter fun p => p ≠ "" ∧ p ≠ ".").getLast? with
  | some name => if name = ".." then none else some name
  | none => none

/-- The part of a name after its last point, unless nothing stands before that point. -/
def extensionOf? (name : String) : Option String :=
  let cs := name.toList.reverse
  match cs.dropWhile (· ≠ '.') with
  | _ :: _ :: _ => some (String.ofList (cs.takeWhile (· ≠ '.')).reverse)
  | _ => none

/-- The extension of the name that a path ends with. -/
def extension? (path : String) : Option String := (fileName? path).bind extensionOf?

/-- The kind of unit that a file holds: a definition if the extension is `def`, otherwise an implementation. -/
def unitKind (path : String) : UnitKind := if extension? path = some "def" then .definition else .implementation

end Modula.Path
