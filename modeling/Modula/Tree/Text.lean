import Modula.Text.Quoted
import Modula.Tree.Node

/-!
# Written trees

A tree is written with brackets: a node is the name of its type and what it holds between parentheses, values are
quoted, and the empty node is the bare name of its type. The text is written from left to right, each part after what
is there.
-/

set_option autoImplicit false

namespace Modula.Node

mutual

/-- Writes a node after a text. -/
def writeAfter (before : String) : Node → String
  | .empty => before ++ NodeType.empty.name
  | .inner t ns => writeAllAfter (before ++ "(" ++ t.name) ns ++ ")"
  | .leaf t vs => vs.foldl (fun text v => text ++ " " ++ Text.quoted v) (before ++ "(" ++ t.name) ++ ")"

/-- Writes nodes after a text, each with a blank in front. -/
def writeAllAfter (before : String) : List Node → String
  | [] => before
  | n :: ns => writeAllAfter (writeAfter (before ++ " ") n) ns

end

/-- The text of a tree. -/
def text (n : Node) : String := writeAfter "" n

end Modula.Node
