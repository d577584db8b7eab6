import Modula.Diagnostic.Basic

/-!
# Comments and disabled sections

Between symbols, blanks, comments and disabled sections are skipped. Comments nest: each opening needs a closing of its
own, and nesting beyond a limit is reported once. A disabled section takes whole lines, from one that starts with a
question mark and a less-than sign to the next one that starts with a greater-than sign and a question mark.
-/

set_option autoImplicit false

namespace Modula.Scan

/-- How many characters are skipped, and what is reported of them. -/
structure Skipped where
  length : Nat
  faults : List Diagnostic

/-- The greatest depth of nested comments that is not reported. -/
def maxCommentDepth : Nat := 100

/-- Skips a comment that starts at `start`, from a later position on. Given are the depth there, the number of
characters skipped before, and where the nesting became too deep if it did. -/
def commentFrom (start : Position) (p : Position) (depth : Nat) (length : Nat) (tooDeep : Option Position) :
    List Char → Skipped
  | '(' :: '*' :: rest =>
    commentFrom start ((p.after '(').after '*') (depth + 1) (length + 2)
      (if maxCommentDepth < depth + 1 then tooDeep.or (some p) else tooDeep) rest
  | '*' :: ')' :: rest =>
    if depth = 1 then ⟨length + 2, tooDeep.toList.map (.atPosition .commentTooDeep)⟩
    else commentFrom start ((p.after '*').after ')') (depth - 1) (length + 2) tooDeep rest
  | c :: rest => commentFrom start (p.after c) depth (length + 1) tooDeep rest
  | [] =>
    ⟨length, tooDeep.toList.map (.atPosition .commentTooDeep) ++ [.atPosition .unclosedComment start]⟩

/-- A comment that starts at a position, given the text after its opening. -/
def comment (p : Position) (rest : List Char) : Skipped :=
  commentFrom p ((p.after '(').after '*') 1 2 none rest

/-- Skips lines up to the end of one that closes a disabled section. Given are the number of the line being skipped,
whether it closes the section, and the number of characters skipped before. The answer has the number of the last
line. -/
def linesFrom (line : Nat) (closes : Bool) (length : Nat) : List Char → Nat × Nat
  | [] => (line, length)
  | '\n' :: rest =>
    if closes then (line, length + 1)
    else
      match rest with
      | [] => (line, length + 1)
      | c :: rest' => linesFrom (line + 1) (c == '>' && rest'.head? == some '?') (length + 1) (c :: rest')
  | _ :: rest => linesFrom line closes (length + 1) rest

/-- A disabled section that starts on a line, given the text of that line and all after it. -/
def disabledSection (line : Nat) (cs : List Char) : Skipped :=
  let (last, length) := linesFrom line false 0 cs
  ⟨length, [{ code := .disabledSection, lines := some ⟨line, last⟩ }]⟩

end Modula.Scan
