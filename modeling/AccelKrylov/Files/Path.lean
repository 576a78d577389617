import AccelKrylov.IoError
import AccelKrylov.Word

/-! Paths and the files they lead to. Looking a path up walks its components from the current directory;
what lies outside of that directory is not known and counts as absent. -/

namespace AccelKrylov

/-! ### Paths -/

namespace Path

/-- A name put below a directory. An absolute name replaces the directory, and no second slash is put
behind one. -/
def join (directory name : String) : String :=
  if name.startsWith "/" then name
  else if directory.isEmpty || directory.endsWith "/" then directory ++ name
  else directory ++ "/" ++ name

/-- A zero byte cannot be part of a path that the system is given. -/
def hasNul (path : String) : Bool := path.toList.contains '\x00'

/-- The parts between slashes. -/
def components (path : String) : List String := path.splitOn "/"

end Path

/-! ### Files -/

/-- What a path leads to. -/
inductive Node where
  | directory
  | file (size : Word)
deriving DecidableEq

/-- The file system, by what paths lead to. -/
structure FileSystem where
  lookUp : String → Except IoError Node

namespace FileSystem

def isFile (fs : FileSystem) (path : String) : Bool :=
  match fs.lookUp path with
  | .ok (.file _) => true
  | _ => false

/-- The size of a file; that of a directory is not of interest. -/
def size (fs : FileSystem) (path : String) : Except IoError Word :=
  match fs.lookUp path with
  | .ok (.file n) => .ok n
  | .ok .directory => .ok 0
  | .error e => .error e

/-- Opening for reading and writing; a directory cannot be written. -/
def canOpen (fs : FileSystem) (path : String) : Except IoError Unit :=
  match fs.lookUp path with
  | .ok (.file _) => .ok ()
  | .ok .directory => .error .isDirectory
  | .error e => .error e

end FileSystem

/-- The current directory: its files with their sizes, and its directories, by their components. -/
structure FileTree where
  files : List (List String × Word)
  directories : List (List String)

namespace FileTree

/-- Where a walk has come to: below the current directory, or outside of it. -/
inductive Place where
  | below (names : List String)
  | outside
deriving DecidableEq

namespace Place

/-- One directory up. -/
def parent : Place → Place
  | below (n :: ns) => below (n :: ns).dropLast
  | _ => outside

/-- The place that a component leads to. -/
def next (place : Place) (c : String) : Place :=
  if c.isEmpty || c == "." then place
  else if c == ".." then place.parent
  else match place with
    | below ns => below (ns ++ [c])
    | outside => outside

/-- The places that components lead through, from the given one to their end. -/
def route (place : Place) : List String → List Place
  | [] => [place]
  | c :: cs => place :: (place.next c).route cs

/-- The components of a place below the current directory. -/
def names? : Place → Option (List String)
  | below ns => some ns
  | outside => none

end Place

/-- The places that a path leads through. -/
def route (path : String) : List Place := (Place.below []).route (Path.components path)

/-- What there is after the paths have been made in turn, each with all directories that it leads
through. Of two files at one place the later one stays. -/
def ofPaths (files : List (String × Word)) (directories : List String) : FileTree where
  files := files.reverse.filterMap fun (path, n) =>
    ((route path).getLast?.bind Place.names?).map fun place => (place, n)
  directories :=
    (files.flatMap fun (path, _) => (route path).dropLast).filterMap Place.names? ++
      (directories.flatMap route).filterMap Place.names?

/-- What is at a place below the current directory. A file or directory implies the ones above it. -/
def nodeAt (t : FileTree) (at_ : List String) : Option Node :=
  match t.files.find? fun (p, _) => p == at_ with
  | some (_, n) => some (.file n)
  | none =>
    if at_.isEmpty || t.files.any (fun (p, _) => at_.isPrefixOf p) ||
        t.directories.any (fun p => at_.isPrefixOf p) then some .directory
    else none

/-- Walks on from a directory. A component of more than 255 bytes is too long. -/
def walk (t : FileTree) : Place → List String → Except IoError Node
  | _, [] => .ok .directory
  | place, c :: rest =>
    if c.isEmpty || c == "." then walk t place rest
    else if c == ".." then walk t place.parent rest
    else if 255 < c.utf8ByteSize then .error .nameTooLong
    else match place with
      | .outside => .error .notFound
      | .below ns => match t.nodeAt (ns ++ [c]) with
        | none => .error .notFound
        | some .directory => walk t (.below (ns ++ [c])) rest
        | some (.file n) => if rest.isEmpty then .ok (.file n) else .error .notDirectory

/-- What a path leads to. -/
def lookUp (t : FileTree) (path : String) : Except IoError Node :=
  if Path.hasNul path then .error .embeddedNul
  else if path.isEmpty then .error .notFound
  else if 4096 ≤ path.utf8ByteSize then .error .nameTooLong
  else if path.startsWith "/" then t.walk .outside (Path.components path)
  else t.walk (.below []) (Path.components path)

def fileSystem (t : FileTree) : FileSystem := ⟨t.lookUp⟩

end FileTree

end AccelKrylov
