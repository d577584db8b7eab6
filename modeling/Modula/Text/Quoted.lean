import Modula.Text.Invisible
import Modula.Text.Extender

/-!
# Quoted texts

A value is written between double quotes. A quote or a backslash in it gets a backslash in front, the tab, the line ends
and the zero character have short escapes, and a character that could not be seen on its own is written by number. A
single character in a message has a narrower form: only printable ASCII stands for itself.
-/

set_option autoImplicit false

namespace Modula.Text

/-- The digits of a number in base sixteen, in lower case. -/
def hexDigits (n : Nat) : List Char := Nat.toDigits 16 n

/-- A character written by number. -/
def numbered (c : Char) : List Char := ['\\', 'u', '\x7b'] ++ hexDigits c.toNat ++ ['\x7d']

/-- How a character is written inside a quoted value. -/
def quotedChar (c : Char) : List Char :=
  if c = '"' ∨ c = '\\' then ['\\', c]
  else if c = '\t' then ['\\', 't']
  else if c = '\r' then ['\\', 'r']
  else if c = '\n' then ['\\', 'n']
  else if c = '\x00' then ['\\', '0']
  else if 0x20 ≤ c.toNat ∧ c.toNat < 0x7F then [c]
  else if isInvisible c || isExtender c then numbered c
  else [c]

/-- A value between double quotes. -/
def quoted (s : String) : String := String.ofList ('"' :: (s.toList.flatMap quotedChar ++ ['"']))

/-- How a single character is written in a message. -/
def escapedChar (c : Char) : String :=
  if c = '\t' then "\\t"
  else if c = '\r' then "\\r"
  else if c = '\n' then "\\n"
  else if c = '\'' ∨ c = '"' ∨ c = '\\' then String.ofList ['\\', c]
  else if 0x20 ≤ c.toNat ∧ c.toNat < 0x7F then String.singleton c
  else String.ofList (numbered c)

end Modula.Text
