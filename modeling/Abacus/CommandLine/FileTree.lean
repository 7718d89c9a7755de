import Abacus.CommandLine.Run

/-!
Trees of files, in which paths are resolved name by name. A name leads on only
from a folder, so a path through a file, or one that ends with a slash behind
a file, leads nowhere. Names and whole paths have a greatest length in bytes.
A run takes the way to load files as a parameter; a tree gives one that reads
nothing from outside, for runs whose files are known.
-/

namespace Abacus.CommandLine

/-- Files with their contents, folders besides those that hold a file, and the
folder in which relative paths start. Places are lists of names from the root. -/
structure FileTree where
  files : List (List String × List UInt8)
  folders : List (List String)
  start : List String

namespace FileTree

def maxNameSize : Nat := 255

def maxPathSize : Nat := 4095

inductive Node where
  | file (bytes : List UInt8)
  | folder (place : List String)
deriving DecidableEq, Repr

/-- The places of all files and of the folders that are given as such. -/
def places (tree : FileTree) : List (List String) :=
  tree.files.map Prod.fst ++ tree.folders

/-- A folder is on the way to some place. -/
def nodeAt (tree : FileTree) (place : List String) : Except FileError Node :=
  match tree.files.find? fun file => file.1 == place with
  | some file => .ok (.file file.2)
  | none =>
    if tree.places.any fun other => place.isPrefixOf other then .ok (.folder place)
    else .error .notFound

/-- One name of a path. The folder above the root is the root. -/
def enter (tree : FileTree) (node : Node) (name : String) : Except FileError Node :=
  match node with
  | .file _ => .error .notDirectory
  | .folder place =>
    if name = "" ∨ name = "." then .ok node
    else if name = ".." then .ok (.folder place.dropLast)
    else if maxNameSize < name.utf8ByteSize then .error .nameTooLong
    else tree.nodeAt (place ++ [name])

def resolve (tree : FileTree) (path : String) : Except FileError Node :=
  if maxPathSize < path.utf8ByteSize then .error .nameTooLong
  else
    let first := if path.startsWith "/" then [] else tree.start
    (path.splitOn "/").foldlM tree.enter (.folder first)

/-- The bytes of the file at a path. -/
def load (tree : FileTree) (path : String) : Except FileError (List UInt8) := do
  match ← tree.resolve path with
  | .file bytes => .ok bytes
  | .folder _ => .error .isDirectory

end FileTree

end Abacus.CommandLine
