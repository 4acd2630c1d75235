import Dialogue.Text.Split

/-! Where a command finds its files: what a path leads to, and why there may be no text there.

A command is given its files as a function from paths, so that what it prints is a value. There are
two ways to come by that function. The program asks the system for the files that its arguments
name. A `Location` is a tree of folders, seen from one of them, in which paths are followed by the
rules of the system: with it commands can be run where there is no disk, and what they print is
known for files that are missing, not text or not files at all.
-/

namespace Dialogue.Command

/-- Why a file cannot be read as text. -/
inductive FileError where
  | notFound
  | isDirectory
  | notDirectory
  | nameTooLong
  | tooManyLinks
  | permissionDenied
  | notText
  | other (message : String)
  deriving Repr, DecidableEq

/-- The wording of the error. -/
def FileError.message : FileError → String
  | notFound => "No such file or directory (os error 2)"
  | isDirectory => "Is a directory (os error 21)"
  | notDirectory => "Not a directory (os error 20)"
  | nameTooLong => "File name too long (os error 36)"
  | tooManyLinks => "Too many levels of symbolic links (os error 40)"
  | permissionDenied => "Permission denied (os error 13)"
  | notText => "stream did not contain valid UTF-8"
  | other message => message

/-- The text of a file. -/
def decodeText (bytes : ByteArray) : Except FileError String :=
  match String.fromUTF8? bytes with
  | some text => .ok text
  | none => .error .notText

/-- The texts of the files that a command can read, by path. -/
abbrev Files :=
  String → Except FileError String

/-- What a name in a folder stands for. -/
inductive Entry where
  | file (bytes : ByteArray)
  | folder (entries : List (String × Entry))

/-- A folder, as the entries that it holds. -/
abbrev Folder :=
  List (String × Entry)

/-- A folder and the folders around it, from the nearest to the root: where paths start that are
followed without a disk.
-/
structure Location where
  folder : Folder
  around : List Folder := []

namespace Location

/-- The folder around this one. The root is in itself. -/
def parent (here : Location) : Location :=
  match here.around with
  | [] => here
  | folder :: around => ⟨folder, around⟩

def root (here : Location) : Location :=
  ⟨here.around.getLastD here.folder, []⟩

/-- The folder of an entry of this one. -/
def enter (here : Location) (entries : Folder) : Location :=
  ⟨entries, here.folder :: here.around⟩

/-- The greatest size of a name, in bytes. -/
def nameLimit : Nat :=
  255

/-- The greatest size of a path, in bytes. -/
def pathLimit : Nat :=
  4095

/-- Follows names from folder to folder up to a file. Only the last of them may be a file, and an
empty name after it asks for a folder too.
-/
def follow (here : Location) : (names : List String) → Except FileError ByteArray
  | [] => .error .isDirectory
  | name :: names =>
      if name = "" ∨ name = "." then here.follow names
      else if name = ".." then here.parent.follow names
      else if nameLimit < name.utf8ByteSize then .error .nameTooLong
      else
        match here.folder.lookup name with
        | none => .error .notFound
        | some (.folder entries) => (here.enter entries).follow names
        | some (.file bytes) => if names.isEmpty then .ok bytes else .error .notDirectory

def names (path : String) : List String :=
  (Text.split '/' path.toList).map String.ofList

/-- The bytes that a path leads to, from the root if it starts with a slash. -/
def bytes (here : Location) (path : String) : Except FileError ByteArray :=
  if path = "" then .error .notFound
  else if pathLimit < path.utf8ByteSize then .error .nameTooLong
  else if path.toList.head? = some '/' then here.root.follow (names path)
  else here.follow (names path)

/-- The files as they are seen from here, to run commands with. -/
def files (here : Location) : Files := fun path =>
  here.bytes path >>= decodeText

end Location

end Dialogue.Command
