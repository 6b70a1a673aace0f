/-!
A directory of files held in memory, and what can go wrong when a file is read. A path is walked
from the directory one component at a time: a component after a file leads nowhere, an empty
component or a period stays, and two periods lead back. What lies outside the directory is not
known.
-/

namespace Frontend.Command

/-- Why a file cannot be read. -/
inductive ReadFailure where
  | notFound
  | isDirectory
  | notDirectory
  | notText
  /-- Anything else that a system may say. -/
  | other (description : String)
  deriving DecidableEq, Repr, Inhabited

/-- The failure in words. -/
def ReadFailure.message : ReadFailure → String
  | notFound => "No such file or directory (os error 2)"
  | isDirectory => "Is a directory (os error 21)"
  | notDirectory => "Not a directory (os error 20)"
  | notText => "stream did not contain valid UTF-8"
  | other description => description

/-- The text of a file, given as bytes. -/
def textOfBytes (bytes : ByteArray) : Except ReadFailure String :=
  match String.fromUTF8? bytes with
  | some text => .ok text
  | none => .error .notText

/-- The components of a path. -/
def components (path : String) : List String := path.splitOn "/"

/-- The components of a path that lead somewhere else. -/
def names (path : String) : List String := (components path).filter fun c => c ≠ "" && c ≠ "."

/-- The name of a file without the directories before it; the whole path if that ends in no name. -/
def fileName (path : String) : String :=
  match (names path).getLast? with
  | none => path
  | some ".." => path
  | some name => name

/-- Files by the components of their paths. -/
structure Directory where
  files : List (List String × ByteArray)

namespace Directory

/-- A directory of files with these paths. -/
def ofFiles (files : List (String × ByteArray)) : Directory :=
  ⟨files.map fun f => (names f.1, f.2)⟩

/-- A place that a path can lead to. -/
inductive Place where
  /-- The file or directory with these components. -/
  | inside (path : List String)
  /-- A directory around the one that is known. -/
  | outside
  deriving DecidableEq, Repr

/-- The bytes of the file at a place. -/
def bytesAt? (d : Directory) : Place → Option ByteArray
  | .inside path => d.files.lookup path
  | .outside => none

/-- Whether there is a directory with these components. -/
def hasDirectory (d : Directory) (path : List String) : Bool :=
  path.isEmpty || d.files.any fun f => path.isPrefixOf f.1 && path.length < f.1.length

/-- One component further. -/
def follow (d : Directory) (place : Place) (component : String) : Except ReadFailure Place :=
  if (d.bytesAt? place).isSome then .error .notDirectory
  else if component = "" || component = "." then .ok place
  else
    match place with
    | .outside => if component = ".." then .ok .outside else .error .notFound
    | .inside path =>
      if component = ".." then .ok (if path.isEmpty then .outside else .inside path.dropLast)
      else
        let next := path ++ [component]
        if (d.files.lookup next).isSome || d.hasDirectory next then .ok (.inside next)
        else .error .notFound

/-- The text of the file that a path leads to. -/
def read (d : Directory) (path : String) : Except ReadFailure String := do
  let start : Place := if path.toList.head? = some '/' then .outside else .inside []
  let place ← (components path).foldlM d.follow start
  match d.bytesAt? place with
  | some bytes => textOfBytes bytes
  | none => .error .isDirectory

end Directory

end Frontend.Command
