import SilFront.Expansion.Session

/-!
# File trees

The files that the command works on, as a value: directories and files below the root, each with what
the command may do with it, and the directory that it works in. There are no links and no devices.

Paths are texts. Their components are separated by slashes; a path that begins with a slash leads
from the root, and others lead from the working directory. A single dot stays, two dots go up, and a
path that ends in a slash means a directory. A path as a whole is refused if it holds a null
character or is too long, wherever it leads; a component that is too long is refused once the
directory that should hold it is reached. Lengths are counted in bytes.
-/

namespace SilFront

/-- The reasons for which a file cannot be read or written. -/
inductive Fault where
  | notFound
  | isDirectory
  | notDirectory
  | denied
  | tooLong
  | nullCharacter
  | notText
  /-- A reason that the system gives. -/
  | system (reason : String)
deriving DecidableEq, Repr

/-- The wording of a reason. -/
def Fault.message : Fault → String
  | .notFound => "No such file or directory (os error 2)"
  | .isDirectory => "Is a directory (os error 21)"
  | .notDirectory => "Not a directory (os error 20)"
  | .denied => "Permission denied (os error 13)"
  | .tooLong => "File name too long (os error 36)"
  | .nullCharacter => "file name contained an unexpected NUL byte"
  | .notText => "stream did not contain valid UTF-8"
  | .system reason => reason

/-! ### Paths -/

namespace Path

/-- The components of a path. -/
def components (path : String) : List String :=
  ((path.toList.splitOn '/').map String.ofList).filter (· ≠ "")

/-- The path of a file in a directory. A file name that begins with a slash stands by itself. -/
def join (directory name : String) : String :=
  if name.startsWith "/" ∨ directory = "" then name
  else if directory.endsWith "/" then directory ++ name
  else directory ++ "/" ++ name

/-- The reversed text of a directory without the slashes and single dots that it can do without: those
after its last component, if that is not where the path begins. -/
def trim : List Char → List Char
  | ['/'] => ['/']
  | '/' :: rest => trim rest
  | ['.', '/'] => ['/']
  | '.' :: '/' :: rest => trim rest
  | rest => rest

/-- The directory of a file, which is empty for a file in the working directory. -/
def directory (path : String) : String :=
  String.ofList (trim (path.toList.reverse.dropWhile (· ≠ '/'))).reverse

/-- The most bytes that a component may have. -/
def longestComponent : Nat :=
  255

/-- The most bytes that a path may have. -/
def longestPath : Nat :=
  4095

/-- Whether a component has too many bytes. -/
def isTooLong (component : String) : Bool :=
  longestComponent < component.utf8ByteSize

/-- Succeeds unless nothing can stand at a path, wherever it leads. -/
def check (path : String) : Except Fault Unit :=
  if path.toList.contains '\x00' then .error .nullCharacter
  else if path = "" then .error .notFound
  else if longestPath < path.utf8ByteSize then .error .tooLong
  else .ok ()

end Path

/-! ### Trees -/

/-- What may be done with a file or a directory. Only directories are searched. -/
structure Access where
  readable : Bool
  writable : Bool
  searchable : Bool
deriving DecidableEq, Repr

/-- Everything may be done. -/
def Access.full : Access :=
  ⟨true, true, true⟩

/-- A directory, or a file with its contents. -/
inductive Node where
  | directory (access : Access := .full)
  | file (contents : ByteArray) (access : Access := .full)

/-- What may be done with a file or a directory. -/
def Node.access : Node → Access
  | .directory access | .file _ access => access

/-- The directories and files below the root, by the components of their paths from there, and the
directory in which paths begin that do not begin at the root. -/
structure FileTree where
  nodes : List (List String × Node)
  workingDirectory : List String

namespace FileTree

/-- The tree without files. -/
def empty : FileTree :=
  ⟨[], []⟩

/-- What stands at a place. The root is a directory even if nothing is said of it. -/
def get? (t : FileTree) (place : List String) : Option Node :=
  (t.nodes.lookup place).or (if place = [] then some .directory else none)

/-- The tree with something at a place, instead of what was there. -/
def insert (t : FileTree) (place : List String) (node : Node) : FileTree :=
  { t with nodes := (place, node) :: t.nodes.filter fun (other, _) => other ≠ place }

/-- Dropping what stands at one place does not change what stands at another. -/
theorem lookup_filter {nodes : List (List String × Node)} {place other : List String}
    (h : other ≠ place) :
  (nodes.filter fun (name, _) => name ≠ place).lookup other = nodes.lookup other
  := by
  induction nodes with
  | nil => rfl
  | cons entry rest ih =>
    obtain ⟨name, contents⟩ := entry
    by_cases hname : name = place
    · have hmiss : (other == name) = false := by simpa [hname] using h
      rw [List.filter_cons_of_neg (by simp [hname]), List.lookup_cons, hmiss]
      exact ih
    · rw [List.filter_cons_of_pos (by simp [hname]), List.lookup_cons, List.lookup_cons, ih]

/-- A tree holds at a place what was put there last, and other places keep what they had. -/
theorem get?_insert (t : FileTree) (place other : List String) (node : Node) :
  (t.insert place node).get? other = if other = place then some node else t.get? other
  := by
  simp only [get?, insert, List.lookup_cons]
  by_cases hother : other = place
  · simp [hother]
  · have hmiss : (other == place) = false := by simpa using hother
    simp only [hmiss, lookup_filter hother, if_neg hother]

/-- The place one component on from a directory. The root is its own parent. -/
def step (place : List String) : String → List String
  | "." => place
  | ".." => place.dropLast
  | name => place ++ [name]

/-- The place that components lead to, all of which have to exist. -/
def walk (t : FileTree) (place : List String) : List String → Except Fault (List String)
  | [] => if (t.get? place).isSome then .ok place else .error .notFound
  | component :: rest =>
    match t.get? place with
    | none => .error .notFound
    | some (.file ..) => .error .notDirectory
    | some (.directory access) =>
      if !access.searchable then .error .denied
      else if Path.isTooLong component then .error .tooLong
      else t.walk (step place component) rest

/-- The place where a path begins. -/
def origin (t : FileTree) (path : String) : List String :=
  if path.startsWith "/" then [] else t.workingDirectory

/-- The contents of a file. -/
def readBytes (t : FileTree) (path : String) : Except Fault ByteArray := do
  Path.check path
  let place ← t.walk (t.origin path) (Path.components path)
  match t.get? place with
  | none => throw .notFound
  | some (.directory access) => if access.readable then throw .isDirectory else throw .denied
  | some (.file contents access) =>
    if path.endsWith "/" then throw .notDirectory
    else if access.readable then return contents
    else throw .denied

/-- The text of a file. -/
def readText (t : FileTree) (path : String) : Except Fault String := do
  match String.fromUTF8? (← t.readBytes path) with
  | some text => return text
  | none => throw .notText

/-- The place of a file in a directory, if it can be written there: in place of a file that may be
written, or as a new file if the directory may be. -/
def writablePlace (t : FileTree) (parent : List String) (access : Access) (name : String) :
    Except Fault (List String) :=
  match t.get? (parent ++ [name]) with
  | some (.directory _) => .error .isDirectory
  | some (.file _ fileAccess) =>
    if fileAccess.writable then .ok (parent ++ [name]) else .error .denied
  | none => if access.writable then .ok (parent ++ [name]) else .error .denied

/-- The place where a file can be written, whether it is there already or not. -/
def target (t : FileTree) (path : String) : Except Fault (List String) := do
  Path.check path
  let components := Path.components path
  match components.getLast? with
  | none => throw .isDirectory
  | some name =>
    if name = "." ∨ name = ".." then
      let _ ← t.walk (t.origin path) components
      throw .isDirectory
    let parent ← t.walk (t.origin path) components.dropLast
    match t.get? parent with
    | none => throw .notFound
    | some (.file ..) => throw .notDirectory
    | some (.directory access) =>
      if !access.searchable then throw .denied
      if path.endsWith "/" then throw .isDirectory
      if Path.isTooLong name then throw .tooLong
      t.writablePlace parent access name

/-- The tree with a file of the given contents at a place. A file that is there already keeps what
may be done with it. -/
def store (t : FileTree) (place : List String) (contents : ByteArray) : FileTree :=
  t.insert place (.file contents (((t.get? place).map Node.access).getD .full))

/-- The tree with a file of the given contents. -/
def write (t : FileTree) (path : String) (contents : ByteArray) : Except Fault FileTree := do
  return t.store (← t.target path) contents

/-- The contents of the file at a place, if there is one. -/
def held (t : FileTree) (place : List String) : ByteArray :=
  match t.get? place with
  | some (.file contents _) => contents
  | _ => .empty

/-- The contents of a file after others are written over its beginning. -/
def overlay (old new : ByteArray) : ByteArray :=
  new ++ old.extract new.size old.size

/-- The tree with contents written over the beginning of a file. -/
def overwrite (t : FileTree) (path : String) (contents : ByteArray) : Except Fault FileTree := do
  let place ← t.target path
  return t.store place (overlay (t.held place) contents)

/-- The texts of all files in a tree that are texts. -/
def texts (t : FileTree) : List String :=
  t.nodes.filterMap fun
    | (_, .file contents _) => String.fromUTF8? contents
    | (_, .directory _) => none

/-- The files that a text, or any other text of a tree, calls for, read from a directory. -/
def library (t : FileTree) (directory source : String) : Library :=
  let names := (source :: t.texts).flatMap Fragment.files
  .ofFiles (names.map fun name =>
    (name, (t.readText (Path.join directory name)).mapError Fault.message))

end FileTree

end SilFront
