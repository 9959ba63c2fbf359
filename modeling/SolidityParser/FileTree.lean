/-!
# File trees

A file system held in memory, and what reading a path in it gives. Files and directories stand under
a root; a path that does not begin with a slash starts at the working directory. A path is followed
name by name, and every name but the last has to lead to a directory: `FileTree.read` answers with
the bytes at the end of the path or with the reason why there are none.
-/

namespace SolidityParser

/-- Why a path cannot be read. -/
inductive ReadFailure
  /-- There is nothing at the path. -/
  | missing
  /-- The path goes on behind a file. -/
  | notDirectory
  /-- The path ends at a directory. -/
  | isDirectory
  /-- The path, or a name in it, is too long. -/
  | nameTooLong
  /-- The path holds the character that ends a path. -/
  | nulInPath
deriving DecidableEq

namespace ReadFailure

/-- The words for a failure, with the number of those that the system reports. -/
def text : ReadFailure → String
  | missing => "No such file or directory (os error 2)"
  | notDirectory => "Not a directory (os error 20)"
  | isDirectory => "Is a directory (os error 21)"
  | nameTooLong => "File name too long (os error 36)"
  | nulInPath => "file name contained an unexpected NUL byte"

end ReadFailure

/-- Files and directories, each at the list of names that leads to it from the root. -/
structure FileTree where
  /-- The files; the first at a place counts. -/
  files : List (List String × ByteArray)
  /-- Directories, besides those that files are in. -/
  directories : List (List String) := []
  /-- The directory where a path starts. -/
  working : List String := []

namespace FileTree

/-- The longest path that can be read, in bytes. -/
def pathLimit : Nat := 4095

/-- The longest name in a path, in bytes. -/
def nameLimit : Nat := 255

/-- The names in a path. A name is empty where slashes stand together or at an end. -/
def names (path : String) : List String := (path.toList.splitOn '/').map String.ofList

/-- The directory where a path starts. -/
def startOf (tree : FileTree) (path : String) : List String :=
  if path.toList.head? = some '/' then [] else tree.working

/-- The place that a name stands for at a place. The empty name and a single dot stay, two dots go
up, but not above the root. -/
def enter (place : List String) (name : String) : List String :=
  if name = "" ∨ name = "." then place
  else if name = ".." then place.dropLast
  else place ++ [name]

/-- The tree with a file written at a path, over an earlier one there. -/
def write (tree : FileTree) (path : String) (bytes : ByteArray) : FileTree :=
  { tree with files := ((names path).foldl enter (tree.startOf path), bytes) :: tree.files }

/-- The bytes of the file at a place. -/
def file? (tree : FileTree) (place : List String) : Option ByteArray := tree.files.lookup place

/-- Is there a file or a directory at a place? Every directory above one that is there counts. -/
def hasPlace (tree : FileTree) (place : List String) : Bool :=
  place.isPrefixOf tree.working || tree.directories.any place.isPrefixOf ||
    tree.files.any fun file => place.isPrefixOf file.1

/-- Where a name leads from a place. -/
def follow (tree : FileTree) (place : List String) (name : String) :
    Except ReadFailure (List String) :=
  if (tree.file? place).isSome then .error .notDirectory
  else if nameLimit < name.utf8ByteSize then .error .nameTooLong
  else if tree.hasPlace (enter place name) then .ok (enter place name)
  else .error .missing

/-- The bytes of the file that a path leads to. -/
def read (tree : FileTree) (path : String) : Except ReadFailure ByteArray :=
  if '\x00' ∈ path.toList then .error .nulInPath
  else if path = "" then .error .missing
  else if pathLimit < path.utf8ByteSize then .error .nameTooLong
  else
    match (names path).foldlM tree.follow (tree.startOf path) with
    | .error failure => .error failure
    | .ok place =>
      match tree.file? place with
      | some bytes => .ok bytes
      | none => .error .isDirectory

/-- The bytes of the file that a path leads to, or the words for the failure. -/
def contents (tree : FileTree) (path : String) : Except String ByteArray :=
  (tree.read path).mapError ReadFailure.text

end FileTree

end SolidityParser
