/-!
# Files and folders

A file is found by following its path one name at a time. An empty name stands for the folder that
has been reached, so slashes may be doubled, and a path that ends with a slash leads to a folder.
-/

namespace MiniJava

/-- Why a file cannot be read. -/
inductive ReadError where
  | notFound
  | denied
  | notFolder
  | isFolder
  | nameTooLong
  /-- The bytes of the file are no UTF-8. -/
  | invalidText
deriving DecidableEq, Inhabited

/-- The error in words. -/
def ReadError.message : ReadError → String
  | notFound => "No such file or directory (os error 2)"
  | denied => "Permission denied (os error 13)"
  | notFolder => "Not a directory (os error 20)"
  | isFolder => "Is a directory (os error 21)"
  | nameTooLong => "File name too long (os error 36)"
  | invalidText => "stream did not contain valid UTF-8"

/--
The files and folders of a machine, each given by the names on the way to it from the root, and the
folder that paths start from. The folders on the way to a file or a folder are there too.
-/
structure FileTree where
  files : List (List String × ByteArray)
  folders : List (List String)
  working : List String
deriving Inhabited

namespace FileTree

/-- What a path leads to. -/
inductive Place where
  | file (contents : ByteArray)
  | folder (names : List String)
deriving Inhabited

/-- Whether a folder is there. -/
def hasFolder (t : FileTree) (names : List String) : Bool :=
  names.isPrefixOf t.working || t.folders.any names.isPrefixOf ||
    t.files.any fun f => names.isPrefixOf f.1

/-- What the names lead to from the root. -/
def place? (t : FileTree) (names : List String) : Option Place :=
  match t.files.lookup names with
  | some contents => some (.file contents)
  | none => if t.hasFolder names then some (.folder names) else none

/-- The largest number of bytes in a name. -/
def maxNameLength : Nat := 255

/-- The largest number of bytes in a path. -/
def maxPathLength : Nat := 4095

/-- What a name stands for in a folder. -/
def enter (t : FileTree) (folder : List String) (name : String) : Except ReadError Place :=
  if name = "" ∨ name = "." then .ok (.folder folder)
  else if name = ".." then .ok (.folder folder.dropLast)
  else if maxNameLength < name.utf8ByteSize then .error .nameTooLong
  else
    match t.place? (folder ++ [name]) with
    | some place => .ok place
    | none => .error .notFound

/-- Follow names from a place. There is no way on from a file. -/
def follow (t : FileTree) : Place → List String → Except ReadError Place
  | place, [] => .ok place
  | .file _, _ :: _ => .error .notFolder
  | .folder folder, name :: names =>
    match t.enter folder name with
    | .ok place => t.follow place names
    | .error e => .error e

/-- The names of a path, which slashes separate. -/
def names (path : String) : List String := (path.toList.splitOn '/').map String.ofList

/-- Where a path starts: at the root if it starts with a slash, else at the working folder. -/
def start (t : FileTree) (path : String) : List String :=
  if path.toList.head? = some '/' then [] else t.working

/-- What a path leads to. -/
def find (t : FileTree) (path : String) : Except ReadError Place :=
  if path = "" then .error .notFound
  else if maxPathLength < path.utf8ByteSize then .error .nameTooLong
  else t.follow (.folder (t.start path)) (names path)

/-- The contents of the file that a path leads to. -/
def read (t : FileTree) (path : String) : Except ReadError ByteArray :=
  match t.find path with
  | .ok (.file contents) => .ok contents
  | .ok (.folder _) => .error .isFolder
  | .error e => .error e

end FileTree

end MiniJava
