/-!
# Files

The files that the program can read: those of its working directory, by their path from there, and
those that the system has, by their path from the root. Directories are the proper beginnings of the
paths from the working directory. Looking up a path goes through it component by component, as an
operating system does, and says why it fails in the same words.

Of the directories above the working one nothing is known but that they are there.
-/

namespace Litany

namespace Shell

/-- What a path leads to. -/
inductive Node where
  | file (contents : ByteArray)
  /-- The standard input. -/
  | input
  | directory

/-- The files of the working directory by path, what stands at the places counted from the root, and
what can be read from the standard input. Paths are given by their components. -/
structure Files where
  entries : List (List String × ByteArray)
  root : List String → Option Node
  input : ByteArray

/-- Why a file cannot be read. -/
inductive FileError where
  | notFound
  | notDirectory
  | isDirectory
  | nameTooLong
  | badName
  | notText
deriving DecidableEq, Repr

/-- The words for a file that cannot be read. -/
def FileError.text : FileError → String
  | notFound => "No such file or directory (os error 2)"
  | notDirectory => "Not a directory (os error 20)"
  | isDirectory => "Is a directory (os error 21)"
  | nameTooLong => "File name too long (os error 36)"
  | badName => "file name contained an unexpected NUL byte"
  | notText => "stream did not contain valid UTF-8"

/-! ### Paths -/

/-- Split at every slash. -/
def splitSlashes : List Char → List (List Char)
  | [] => [[]]
  | c :: cs =>
    match splitSlashes cs with
    | [] => [[c]]
    | first :: rest => if c = '/' then [] :: first :: rest else (c :: first) :: rest

/-- The components of a path. -/
def components (path : String) : List String :=
  (splitSlashes path.toList).map String.ofList

/-- Whether a path begins at the root. -/
def isAbsolute (path : String) : Bool :=
  path.toList.head? == some '/'

/-- The directory part of a path, empty for a bare name. -/
def directory (path : String) : String :=
  String.intercalate "/" (components path).dropLast

/-- A path seen from a directory. A path from the root stands for itself. -/
def join (base path : String) : String :=
  if base = "" || isAbsolute path then path else base ++ "/" ++ path

/-- The directory that a place is counted from. -/
inductive Base where
  | working
  | above
  | root
deriving DecidableEq, Repr

/-- A place that a path leads through. -/
structure Location where
  base : Base
  names : List String
deriving DecidableEq, Repr

namespace Location

/-- The place of a name in a directory. -/
def child (p : Location) (name : String) : Location :=
  { p with names := p.names ++ [name] }

/-- The directory that a place is in. The root is in itself. -/
def parent (p : Location) : Location :=
  if p.names.isEmpty then
    match p.base with
    | .root => p
    | _ => ⟨.above, []⟩
  else { p with names := p.names.dropLast }

end Location

/-! ### Looking up -/

namespace Files

/-- Files of the working directory from their written paths, on a system that has none. -/
def ofList (files : List (String × ByteArray)) : Files where
  entries := files.map fun (path, contents) => (components path, contents)
  root names := if names.isEmpty then some .directory else none
  input := ByteArray.empty

/-- What stands at a place. -/
def node? (files : Files) (p : Location) : Option Node :=
  match p.base with
  | .root => files.root p.names
  | .above => if p.names.isEmpty then some .directory else none
  | .working =>
    match files.entries.lookup p.names with
    | some contents => some (.file contents)
    | none =>
      if p.names.isEmpty || files.entries.any fun e => p.names.isPrefixOf e.1 then some .directory
      else none

/-- Follow components from a place. -/
def walk (files : Files) : Location → List String → Except FileError (Location × Node)
  | p, [] =>
    match files.node? p with
    | some node => .ok (p, node)
    | none => .error .notFound
  | p, name :: rest =>
    match files.node? p with
    | none => .error .notFound
    | some .directory =>
      if name = "" || name = "." then walk files p rest
      else if name = ".." then walk files p.parent rest
      else if 255 < name.utf8ByteSize then .error .nameTooLong
      else walk files (p.child name) rest
    | some _ => .error .notDirectory

/-- Follow a path from the working directory, or from the root. -/
def find (files : Files) (path : String) : Except FileError (Location × Node) :=
  if path.toList.contains (Char.ofNat 0) then .error .badName
  else if path = "" then .error .notFound
  else if 4096 ≤ path.utf8ByteSize then .error .nameTooLong
  else files.walk ⟨if isAbsolute path then .root else .working, []⟩ (components path)

/-- The contents of a file. -/
def bytes (files : Files) (path : String) : Except FileError ByteArray := do
  match ← files.find path with
  | (_, .file contents) => return contents
  | (_, .input) => return files.input
  | (_, .directory) => throw .isDirectory

/-- The text of a file. -/
def text (files : Files) (path : String) : Except FileError String := do
  match String.fromUTF8? (← files.bytes path) with
  | some text => return text
  | none => throw .notText

/-- The files after one was read: the standard input can be read only once. -/
def afterReading (files : Files) (path : String) : Files :=
  match files.find path with
  | .ok (_, .input) => { files with input := ByteArray.empty }
  | _ => files

end Files

end Shell

end Litany
