/-!
# Files, as a configuration sees them

A view of the files says what stands at a path: a file with its text, a directory, or nothing.
Nothing here changes a file. A path may also be one at which nothing can stand: paths and the names
on them have a greatest length, and no path holds the character NUL.
-/

namespace FieldWire

/-- What stands at a path. -/
inductive Entry where
  /-- A file with its text. -/
  | file (text : String)
  /-- A directory. -/
  | directory

/-- What stands at each path. -/
abbrev Files := String → Option Entry

/-- Why a path cannot be opened. -/
inductive FileFault where
  /-- Nothing stands at the path, or its directory is missing. -/
  | notFound
  /-- A directory stands at the path. -/
  | isDirectory
  /-- The path, or the first name on it at which nothing stands, is too long. -/
  | nameTooLong
  /-- The path holds the character NUL. -/
  | nulInPath
deriving DecidableEq, Repr

/-- The fault in words. -/
def FileFault.message : FileFault → String
  | notFound => "No such file or directory (os error 2)"
  | isDirectory => "Is a directory (os error 21)"
  | nameTooLong => "File name too long (os error 36)"
  | nulInPath => "file name contained an unexpected NUL byte"

/-! ### Paths -/

namespace FilePath

/-- A reversed path without the separators and lone dots at its end. -/
def trimEnd : List Char → List Char
  | '/' :: rest => trimEnd rest
  | '.' :: '/' :: rest => trimEnd ('/' :: rest)
  | cs => cs

/-- The directory part of a path: the root has none, and a bare name has the empty one. -/
def parent? (path : String) : Option String :=
  let reversed := path.toList.reverse
  match trimEnd reversed with
  | [] => none
  | cs =>
    match cs.dropWhile (· ≠ '/') with
    | [] => some ""
    | rest =>
      match trimEnd rest with
      | [] => some "/"
      | up => some (String.ofList up.reverse)

/-- The greatest length of a path, in bytes. -/
def maxLength : Nat := 4095

/-- The greatest length of a name on a path, in bytes. -/
def maxNameLength : Nat := 255

/-- Why a path leads nowhere, whatever files there are. -/
def fault? (path : String) : Option FileFault :=
  if path.contains '\x00' then some .nulInPath
  else if maxLength < path.utf8ByteSize then some .nameTooLong
  else none

/-- Why a name at which nothing stands cannot be followed. -/
def nameFault (name : String) : FileFault :=
  if maxNameLength < name.utf8ByteSize then .nameTooLong else .notFound

end FilePath

/-! ### Views -/

namespace Files

/-- Whether a file stands at the path. -/
def isFile (files : Files) (path : String) : Bool :=
  match files path with
  | some (.file _) => true
  | _ => false

/-- Whether anything stands at the path. -/
def exists? (files : Files) (path : String) : Bool := (files path).isSome

/-- The first name at which nothing stands and the parts behind it, on the way from `walked` along
the parts of a path. Separators that follow each other have an empty part between them. -/
def firstMissing? (files : Files) :
    (walked : String) → (parts : List String) → Option (String × List String)
  | _, [] => none
  | walked, part :: rest =>
    if part.isEmpty ∨ files.exists? (walked ++ part) then
      firstMissing? files (walked ++ part ++ "/") rest
    else some (part, rest)

/-- Why nothing can be read at a path where nothing stands. -/
def missing (files : Files) (path : String) : FileFault :=
  match FilePath.fault? path, files.firstMissing? "" (path.splitOn "/") with
  | some fault, _ => fault
  | none, some (name, _) => FilePath.nameFault name
  | none, none => .notFound

/-- The text of the file at a path. -/
def read (files : Files) (path : String) : Except FileFault String :=
  match files path with
  | some (.file text) => .ok text
  | some .directory => .error .isDirectory
  | none => .error (files.missing path)

/-- Opens a file to write at its end: a missing file is made where its directory exists. Separators
behind its name ask for a directory, before the length of the name counts. -/
def openToAppend (files : Files) (path : String) : Except FileFault Unit :=
  match files path with
  | some (.file _) => .ok ()
  | some .directory => .error .isDirectory
  | none =>
    match FilePath.fault? path, files.firstMissing? "" (path.splitOn "/") with
    | some fault, _ => .error fault
    | none, some (name, []) =>
      match FilePath.nameFault name with
      | .notFound => .ok ()
      | fault => .error fault
    | none, some (name, behind) =>
      if behind.all String.isEmpty then .error .isDirectory
      else .error (FilePath.nameFault name)
    | none, none => .error .notFound

end Files

end FieldWire
