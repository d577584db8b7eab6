/-!
# Decoding of UTF-8

A text on file is a list of bytes. Decoding reads them one at a time and keeps what is known of an unfinished
character; the range of the next byte rules out overlong forms, surrogates and numbers beyond the last code point. A
fault names the index where the bad sequence starts, and its length unless the bytes end inside it.
-/

set_option autoImplicit false

namespace Modula.Text

/-- Why bytes are not a text. -/
inductive Utf8Fault where
  /-- So many bytes from this index cannot be part of any character. -/
  | invalid (index : Nat) (length : Nat)
  /-- The bytes end inside the character that starts at this index. -/
  | incomplete (index : Nat)
deriving DecidableEq, Repr

/-- A fault in words. -/
def Utf8Fault.message : Utf8Fault → String
  | .invalid index length =>
    "invalid utf-8 sequence of " ++ toString length ++ " bytes from index " ++ toString index
  | .incomplete index => "incomplete utf-8 byte sequence from index " ++ toString index

/-- A character of which some bytes have been read. -/
structure Unfinished where
  /-- The index of the first byte. -/
  start : Nat
  /-- The number of bytes read. -/
  length : Nat
  /-- The number of bytes still to come. -/
  missing : Nat
  /-- The number given by the bits read. -/
  value : Nat
  /-- The least next byte. -/
  low : Nat
  /-- The greatest next byte. -/
  high : Nat

/-- What the first byte of a longer character says about the rest of it. -/
def Unfinished.ofFirst? (index : Nat) (byte : Nat) : Option Unfinished :=
  if byte < 0xC2 then none
  else if byte < 0xE0 then some ⟨index, 1, 1, byte - 0xC0, 0x80, 0xBF⟩
  else if byte = 0xE0 then some ⟨index, 1, 2, 0, 0xA0, 0xBF⟩
  else if byte = 0xED then some ⟨index, 1, 2, 0xD, 0x80, 0x9F⟩
  else if byte < 0xF0 then some ⟨index, 1, 2, byte - 0xE0, 0x80, 0xBF⟩
  else if byte = 0xF0 then some ⟨index, 1, 3, 0, 0x90, 0xBF⟩
  else if byte < 0xF4 then some ⟨index, 1, 3, byte - 0xF0, 0x80, 0xBF⟩
  else if byte = 0xF4 then some ⟨index, 1, 3, 4, 0x80, 0x8F⟩
  else none

/-- Decodes the bytes from an index on, given the characters before them, last one first, and an unfinished character.
-/
def decodeFrom (index : Nat) (before : List Char) : Option Unfinished → List UInt8 → Except Utf8Fault (List Char)
  | none, [] => .ok before.reverse
  | some u, [] => .error (.incomplete u.start)
  | none, byte :: rest =>
    let b := byte.toNat
    if b < 0x80 then decodeFrom (index + 1) (Char.ofNat b :: before) none rest
    else
      match Unfinished.ofFirst? index b with
      | none => .error (.invalid index 1)
      | some u => decodeFrom (index + 1) before (some u) rest
  | some u, byte :: rest =>
    let b := byte.toNat
    if b < u.low ∨ u.high < b then .error (.invalid u.start u.length)
    else
      let value := u.value * 64 + (b - 0x80)
      if u.missing = 1 then decodeFrom (index + 1) (Char.ofNat value :: before) none rest
      else decodeFrom (index + 1) before (some ⟨u.start, u.length + 1, u.missing - 1, value, 0x80, 0xBF⟩) rest

/-- The characters that the bytes stand for. -/
def decode (bytes : List UInt8) : Except Utf8Fault (List Char) := decodeFrom 0 [] none bytes

end Modula.Text
