import Modula.Files.Path
import Modula.Source.Basic

/-!
# Directories

A directory is the part of a file system that a run can see: files with their bytes, and directories, by the names
that lead to them. Opening a path follows its names one by one. A source is opened only if its file can be reached, is
not too large, and holds a text.
-/

set_option autoImplicit false

namespace Modula

/-- What a name can stand for. -/
inductive Entry where
  | file (bytes : ByteArray)
  | directory

/-- The entries of a file system below one directory, each with the names that lead to it, later ones in front. -/
structure Directory where
  entries : List (List String × Entry)

namespace Directory

/-- The directory without entries. -/
def empty : Directory := ⟨[]⟩

/-- The directory with an entry at a path; the directories on the way come with it. -/
def add (d : Directory) (path : String) (e : Entry) : Directory :=
  ⟨((Path.pieces path).filter (· ≠ ""), e) :: d.entries⟩

/-- What the names lead to. -/
def find? (d : Directory) (names : List String) : Option Entry :=
  match d.entries.find? (·.1 = names) with
  | some (_, e) => some e
  | none => if d.entries.any (fun (path, _) => names.isPrefixOf path) then some .directory else none

/-- Why a path cannot be opened. -/
inductive OpenFault where
  | notFound
  | unreadable (fault : ReadFault)

/-- The greatest number of bytes of a name. -/
def maxNameSize : Nat := 255

/-- The greatest number of bytes of a path. -/
def maxPathSize : Nat := 4095

/-- Follows the pieces of a path outside the directory, where nothing is known but that the way leads through
directories. -/
def followOutside (pieces : List String) : Except OpenFault Entry :=
  if pieces.all ["", ".", ".."].contains then .ok .directory else .error .notFound

/-- Follows the pieces of a path from the entry that the names lead to. -/
def follow (d : Directory) (names : List String) : Entry → List String → Except OpenFault Entry
  | e, [] => .ok e
  | .file _, _ :: _ => .error (.unreadable .notDirectory)
  | .directory, piece :: rest =>
    if piece = "" ∨ piece = "." then follow d names .directory rest
    else if piece = ".." then
      if names.isEmpty then followOutside rest else follow d names.dropLast .directory rest
    else if maxNameSize < piece.utf8ByteSize then .error (.unreadable .nameTooLong)
    else
      match d.find? (names ++ [piece]) with
      | none => .error .notFound
      | some e => follow d (names ++ [piece]) e rest

/-- The bytes of the file at a path. -/
def read (d : Directory) (path : String) : Except OpenFault ByteArray := do
  if path.toList.contains '\x00' then throw (.unreadable .zeroInName)
  if path = "" then throw .notFound
  if maxPathSize < path.utf8ByteSize then throw (.unreadable .nameTooLong)
  let pieces := Path.pieces path
  match ← if path.toList.head? = some '/' then followOutside pieces else d.follow [] .directory pieces with
  | .file bytes => return bytes
  | .directory => throw (.unreadable .isDirectory)

end Directory

/-- Opens the file at a path as a source named by the path. -/
def Source.ofFile (d : Directory) (path : String) : Except SourceError Source := do
  let bytes ←
    match d.read path with
    | .ok bytes => pure bytes
    | .error .notFound => throw (.notFound path)
    | .error (.unreadable fault) => throw (.unreadable path fault)
  if SourceError.maxSize < bytes.size then throw (.tooLarge path bytes.size)
  match Text.decode bytes.toList with
  | .ok text => Source.ofText path (String.ofList text)
  | .error fault => throw (.unreadable path (.notUtf8 fault))

end Modula
