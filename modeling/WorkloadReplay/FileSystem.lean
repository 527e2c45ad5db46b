import WorkloadReplay.Fault
import WorkloadReplay.Path

/-!
# Files

Files and directories by their places, each with the time of its last change. Paths start from one
directory, `home`, unless they start with a slash. The directories above it have no names, so no
path leads through them down to `home`. The clock moves on with every change, so a later change has
a later time unless a time is set.
-/

namespace WorkloadReplay

inductive FileNode where
  | file (content : List UInt8) (modified : Int)
  | directory (modified : Int)
  deriving DecidableEq

def FileNode.modified : FileNode → Int
  | .file _ modified => modified
  | .directory modified => modified

/-- Where a file or directory is: the names on the way to it. -/
abbrev Place := List String

/-- Files and directories by their places, and the time. -/
structure FileSystem where
  nodes : List (Place × FileNode)
  clock : Int
  deriving DecidableEq

namespace FileSystem

def home : Place := ["", ""]

def empty (clock : Int) : FileSystem :=
  ⟨[([], .directory clock), ([""], .directory clock), (home, .directory clock)], clock⟩

def node? (fs : FileSystem) (place : Place) : Option FileNode := fs.nodes.lookup place

/-- Where a name leads from a directory. -/
def along (place : Place) (name : String) : Place :=
  if name = ".." then place.dropLast else place ++ [name]

def origin (path : String) : Place := if Path.isAbsolute path then [] else home

def follow (fs : FileSystem) (place : Place) : List String → Except StorageProblem Place
  | [] => .ok place
  | name :: rest =>
    match fs.node? place with
    | none => .error .noSuchFile
    | some (.file _ _) => .error .notADirectory
    | some (.directory _) =>
      if Path.maxNameLength < name.utf8ByteSize then .error .nameTooLong
      else follow fs (along place name) rest

/-- The place that a path leads to, where there may be nothing. -/
def place (fs : FileSystem) (path : String) : Except StorageProblem Place :=
  if path.isEmpty then .error .noSuchFile
  else if Path.hasNul path then .error .nulInName
  else if Path.isTooLong path then .error .nameTooLong
  else fs.follow (origin path) (Path.components path)

def find (fs : FileSystem) (path : String) : Except StorageProblem FileNode := do
  match fs.node? (← fs.place path) with
  | none => .error .noSuchFile
  | some (.file content modified) =>
    if Path.namesDirectory path then .error .notADirectory else .ok (.file content modified)
  | some (.directory modified) => .ok (.directory modified)

def read (fs : FileSystem) (path : String) : Except StorageProblem (List UInt8) := do
  match ← fs.find path with
  | .file content _ => .ok content
  | .directory _ => .error .isADirectory

/-- The content of the file that a path leads to, where a missing file is a fault of its own. -/
def readExisting (fs : FileSystem) (path : String) : Except Fault (List UInt8) :=
  match fs.read path with
  | .ok content => .ok content
  | .error .noSuchFile => .error (.fileNotFound path)
  | .error problem => .error (.storage problem)

def modified? (fs : FileSystem) (path : String) : Except Fault (Option Int) :=
  match fs.find path with
  | .ok node => .ok (some node.modified)
  | .error .noSuchFile => .ok none
  | .error problem => .error (.storage problem)

def tick (fs : FileSystem) : FileSystem := { fs with clock := fs.clock + 1 }

def put (fs : FileSystem) (place : Place) (node : FileNode) : FileSystem :=
  { fs with nodes := (place, node) :: fs.nodes.filter (·.1 ≠ place) }

def drop (fs : FileSystem) (place : Place) : FileSystem :=
  { fs with nodes := fs.nodes.filter (·.1 ≠ place) }

def touch (fs : FileSystem) (place : Place) : FileSystem :=
  match fs.node? place with
  | some (.directory _) => fs.put place (.directory fs.clock)
  | _ => fs

/-- Goes along a name from a directory to another, which is created if there is nothing. -/
def enter (fs : FileSystem) (place : Place) (name : String) :
    FileSystem × Except StorageProblem Place :=
  if Path.maxNameLength < name.utf8ByteSize then (fs, .error .nameTooLong)
  else
    match fs.node? (along place name) with
    | some (.directory _) => (fs, .ok (along place name))
    | some (.file _ _) => (fs, .error .fileExists)
    | none =>
      (((fs.touch place).put (along place name) (.directory fs.clock)).tick,
        .ok (along place name))

/-- Goes along names from a directory, and creates the directories that are missing. What has been
created stays if one cannot be. -/
def enterAll (fs : FileSystem) (place : Place) :
    List String → FileSystem × Except StorageProblem Place
  | [] => (fs, .ok place)
  | name :: rest =>
    match fs.enter place name with
    | (fs, .ok place) => enterAll fs place rest
    | (fs, .error problem) => (fs, .error problem)

/-- Creates the directory that a path leads to, and those on the way to it; gives its place. -/
def createDirectory (fs : FileSystem) (path : String) :
    FileSystem × Except StorageProblem Place :=
  if Path.hasNul path then (fs, .error .nulInName)
  else if Path.isTooLong path then (fs, .error .nameTooLong)
  else fs.enterAll (origin path) (Path.components path)

/-- The place of the file that a path leads to from the directory `around`, if a file can be put
there. -/
def target (fs : FileSystem) (around : Place) (path : String) : Except StorageProblem Place :=
  match (Path.components path).getLast? with
  | none => .error .isADirectory
  | some name =>
    if Path.hasNul path then .error .invalidName
    else if Path.isTooLong path ∨ Path.maxNameLength < name.utf8ByteSize then .error .nameTooLong
    else if Path.namesDirectory path then .error .notADirectory
    else
      match fs.node? (along around name) with
      | some (.directory _) => .error .isADirectory
      | _ => .ok (along around name)

def putFile (fs : FileSystem) (place : Place) (content : List UInt8) (modified : Int) :
    FileSystem :=
  match fs.node? place with
  | some _ => fs.put place (.file content modified)
  | none => (fs.touch place.dropLast).put place (.file content modified)

/-- Writes a file, with the time of its change if one is set, and creates the directories on the way
to it. -/
def write (fs : FileSystem) (path : String) (content : List UInt8) (modified : Option Int) :
    FileSystem × Except StorageProblem Unit :=
  match fs.createDirectory (Path.directory path) with
  | (fs, .error problem) => (fs, .error problem)
  | (fs, .ok around) =>
    match fs.target around path with
    | .error problem => (fs, .error problem)
    | .ok place => ((fs.putFile place content (modified.getD fs.clock)).tick, .ok ())

/-- Writes a file under another name beside its place, from where it replaces the file that is there
as a whole. The directories on the way to it are created. If the file cannot be put in its place,
only the directory around it has changed. -/
def replace (fs : FileSystem) (path : String) (content : List UInt8) :
    FileSystem × Except StorageProblem Unit :=
  match fs.createDirectory (Path.directory path) with
  | (fs, .error problem) => (fs, .error problem)
  | (fs, .ok around) =>
    if Path.isTooLong (Path.directory path ++ "/" ++ Path.temporaryName) then
      (fs, .error .nameTooLong)
    else
      match fs.target around path with
      | .error problem => ((fs.touch around).tick, .error problem)
      | .ok place => (((fs.put place (.file content fs.clock)).tick.touch around).tick, .ok ())

def remove (fs : FileSystem) (path : String) : Except StorageProblem FileSystem := do
  let place ← fs.place path
  match ← fs.find path with
  | .file _ _ => .ok ((fs.drop place).touch place.dropLast).tick
  | .directory _ => .error .isADirectory

/-- All files and directories below `home` by their paths, directories with a slash behind them. -/
def names (fs : FileSystem) : List String :=
  let name := fun (place, node) =>
    match node with
    | FileNode.file _ _ => String.intercalate "/" place
    | FileNode.directory _ => String.intercalate "/" place ++ "/"
  let below := fun (place, node) =>
    if home.isPrefixOf place ∧ place ≠ home then some (place.drop home.length, node) else none
  ((fs.nodes.filterMap below).map name).mergeSort fun a b => !(b < a)

end FileSystem

end WorkloadReplay
