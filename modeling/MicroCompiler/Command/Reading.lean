import MicroCompiler.Source.Path

/-! Reading files. A reader stands for a file system: it gives the content of a file and its
absolute path, or says why there is none. A file tree is a reader that is held in memory. -/

namespace MicroCompiler.Command

inductive ReadError where
  | notFound
  | denied
  | notDirectory
  | isDirectory
  | nameTooLong
  | zeroInName
  | notText
  /-- Any other failure, by its text. -/
  | other (text : String)
  deriving DecidableEq, Repr

def ReadError.message : ReadError → String
  | .notFound => "No such file or directory (os error 2)"
  | .denied => "Permission denied (os error 13)"
  | .notDirectory => "Not a directory (os error 20)"
  | .isDirectory => "Is a directory (os error 21)"
  | .nameTooLong => "File name too long (os error 36)"
  | .zeroInName => "file name contained an unexpected NUL byte"
  | .notText => "stream did not contain valid UTF-8"
  | .other text => text

/-- A file that was read. -/
structure Found where
  absolute : String
  content : String
  deriving DecidableEq, Repr

abbrev Reader := String → Except ReadError Found

/-- The content of a file whose bytes must be text. -/
def Found.ofBytes (absolute : String) (bytes : ByteArray) : Except ReadError Found :=
  match String.fromUTF8? bytes with
  | some content => .ok ⟨absolute, content⟩
  | none => .error .notText

/-- Files by their places below the root, and the directory that relative paths start from. -/
structure FileTree where
  directory : List String
  files : List (List String × ByteArray)

namespace FileTree

/-- A tree whose files are given relative to its directory. Of two files at one place the later one
stays. -/
def ofFiles (directory : List String) (files : List (String × ByteArray)) : FileTree where
  directory := directory
  files := (files.map fun (name, bytes) => (directory ++ Path.pieces name, bytes)).reverse

inductive Node where
  | file (bytes : ByteArray)
  | directory

/-- What stands at a place. The directories are those on the way to a file or to the starting
directory. -/
def node? (tree : FileTree) (place : List String) : Option Node :=
  match tree.files.lookup place with
  | some bytes => some (.file bytes)
  | none =>
    if place.isPrefixOf tree.directory || tree.files.any fun (p, _) => place.isPrefixOf p then
      some .directory
    else none

/-- Follows the pieces of a path from a place that exists. Each piece is looked up in a
directory. -/
def walk (tree : FileTree) (place : List String) : List String → Except ReadError (List String)
  | [] => .ok place
  | piece :: rest =>
    match tree.node? place with
    | some .directory =>
      if piece = "" ∨ piece = "." then tree.walk place rest
      else if piece = ".." then tree.walk place.dropLast rest
      else if 255 < piece.utf8ByteSize then .error .nameTooLong
      else if (tree.node? (place ++ [piece])).isNone then .error .notFound
      else tree.walk (place ++ [piece]) rest
    | _ => .error .notDirectory

def reader (tree : FileTree) : Reader := fun path => do
  if path.toList.any (·.toNat = 0) then .error .zeroInName
  else if path = "" then .error .notFound
  else if 4096 ≤ path.utf8ByteSize then .error .nameTooLong
  else
    let place ← tree.walk (if path.toList.head? = some '/' then [] else tree.directory)
      (Path.pieces path)
    match tree.node? place with
    | some (.file bytes) => Found.ofBytes ("/" ++ "/".intercalate place) bytes
    | _ => .error .isDirectory

end FileTree

end MicroCompiler.Command
