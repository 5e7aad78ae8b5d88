import ModuleGraph.Text

/-! Files held in memory, on which the program runs without a disk. A place is given by the names
that lead to it from the root. -/
namespace ModuleGraph

inductive ReadFault
  | notFound
  | notDirectory
  | isDirectory
  /-- A name on the way, or the whole path, has more bytes than a file can have. -/
  | nameTooLong
  | nulInName
  | other (description : String)
deriving DecidableEq

def ReadFault.message : ReadFault → String
  | .notFound => "No such file or directory (os error 2)"
  | .notDirectory => "Not a directory (os error 20)"
  | .isDirectory => "Is a directory (os error 21)"
  | .nameTooLong => "File name too long (os error 36)"
  | .nulInName => "file name contained an unexpected NUL byte"
  | .other description => description

structure FileTree where
  files : List (List String × String)
  /-- Directories that are there even if they hold no file. -/
  directories : List (List String)
  workingDirectory : List String

namespace FileTree

/-- The bytes that one name can have. -/
def maxName : Nat := 255

def maxPath : Nat := 4095

def content? (t : FileTree) (place : List String) : Option String :=
  (t.files.find? (·.1 = place)).map (·.2)

def isDirectory (t : FileTree) (place : List String) : Bool :=
  t.directories.any (place.isPrefixOf ·) || t.files.any fun f => place.isPrefixOf f.1.dropLast

/-- Goes on from a place by names and reads the file there. The place has to be a directory before
the next name is looked at. -/
def walk (t : FileTree) : List String → List String → Except ReadFault String
  | place, [] =>
    match t.content? place with
    | some text => .ok text
    | none => .error (if t.isDirectory place then .isDirectory else .notFound)
  | place, name :: names =>
    if (t.content? place).isSome then .error .notDirectory
    else if !t.isDirectory place then .error .notFound
    else if name = "" ∨ name = "." then t.walk place names
    else if name = ".." then t.walk place.dropLast names
    else if maxName < name.utf8ByteSize then .error .nameTooLong
    else t.walk (place ++ [name]) names

/-- Reads the file at a path, which leads from the root if it is absolute and else from the working
directory. -/
def read (t : FileTree) (path : String) : Except ReadFault String :=
  if path = "" then .error .notFound
  else if maxPath < path.utf8ByteSize then .error .nameTooLong
  else
    t.walk (if path.startsWith "/" then [] else t.workingDirectory)
      ((Text.splitAll '/' path.toList).map String.ofList)

end FileTree

end ModuleGraph
