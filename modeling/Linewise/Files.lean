import Linewise.Source

/-!
# Files

What opening a file by its path gives. While a program runs this is a fixed
map from paths to sources.

A `Folder` is the content of a working directory, and `Folder.open` finds a
path in it: component by component, `.` staying where it is and `..` going up.
All there is outside of the working directory is directories without a name.
-/

namespace Linewise

/-- What opening a path gives. -/
abbrev Files := String → Except Unreadable Source

/-- What a path in a folder leads to. -/
inductive Entry where
  | file (bytes : List UInt8)
  | directory

/-- The content of a working directory: the components of each path in it. A
    directory is listed only if there is nothing in it. -/
abbrev Folder := List (List String × Entry)

namespace Folder

/-- The longest path, in bytes. -/
def maxPath : Nat := 4095

/-- The longest component of a path, in bytes. -/
def maxComponent : Nat := 255

/-- The components of a path. Two slashes in a row, and one at an end, have an
    empty component beside them. -/
def components (path : String) : List String :=
  (path.toList.splitOn '/').map String.ofList

/-- The entry at a path without `.` and `..`: a directory if there is something
    below it. -/
def entry? (f : Folder) (path : List String) : Option Entry :=
  match f.lookup path with
  | some e => some e
  | none => if f.any fun (p, _) => path.isPrefixOf p then some .directory else none

/-- Where a walk along a path is: below the working directory, or outside. -/
inductive Place where
  /-- The names of the directories from the working directory on, last first. -/
  | inside (names : List String)
  | outside

/-- The directory around a place. -/
def Place.parent : Place → Place
  | inside (_ :: names) => inside names
  | inside [] | outside => outside

/-- What a walk along some components leads to. A file ends it. -/
def walk (f : Folder) : Place → List String → Except Unreadable Entry
  | _, [] => .ok .directory
  | place, name :: rest =>
    if name = "" ∨ name = "." then walk f place rest
    else if name = ".." then walk f place.parent rest
    else if maxComponent < name.utf8ByteSize then .error .nameTooLong
    else
      match place with
      | .outside => .error .notFound
      | .inside names =>
        match f.entry? (name :: names).reverse with
        | none => .error .notFound
        | some .directory => walk f (.inside (name :: names)) rest
        | some (.file bytes) => if rest = [] then .ok (.file bytes) else .error .notDirectory

/-- What a path leads to. -/
def find (f : Folder) (path : String) : Except Unreadable Entry :=
  if path.toList.contains '\x00' then .error .zeroInName
  else if path = "" then .error .notFound
  else if maxPath < path.utf8ByteSize then .error .nameTooLong
  else
    match components path with
    | "" :: rest => walk f .outside rest
    | names => walk f (.inside []) names

/-- The files of a folder. -/
def files (f : Folder) : Files := fun path => do
  match ← f.find path with
  | .file bytes => return .ofBytes bytes
  | .directory => return .directory

/-- A folder with one more entry, whose name ends in a slash if it is a
    directory. -/
def add (f : Folder) (name : String) (bytes : List UInt8) : Folder :=
  let names := (components name).filter (· ≠ "")
  (names, if name.toList.getLast? = some '/' then .directory else .file bytes) :: f

end Folder

end Linewise
