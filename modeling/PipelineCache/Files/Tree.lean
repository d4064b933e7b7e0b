import PipelineCache.Files.Path
import PipelineCache.Table

/-! A file system: folders, files and symbolic links by their place below the root, and the walk
along a path that follows links on the way but leaves one at the end alone. -/
namespace PipelineCache

inductive Node where
  | folder
  | file
  | link (target : Path)

/-- A node, and whether the system lets it be removed. -/
structure Entry where
  node : Node
  removable : Bool

/-- The names from the root down. -/
abbrev Place := List String

/-- What a process can look up, and the folder that it works in. What it cannot, for instance in a
folder that it may not search, counts as absent. The root is always a folder and has no entry. -/
structure Files where
  entries : Table Place Entry
  here : Place

namespace Path

/-- What stands between the slashes, from the first to the last. -/
def steps (p : Path) : List String := (Text.pieces '/' p.text.toList).map String.ofList

/-- Whether a path can name anything at all: it is not empty, holds no null character and has fewer
than 4096 bytes. -/
def isUsable (p : Path) : Bool :=
  !p.text.isEmpty && !p.text.toList.contains '\x00' && p.text.utf8ByteSize < 4096

end Path

def isStay (name : String) : Bool := name == "" || name == "."

def isTooLong (name : String) : Bool := 255 < name.utf8ByteSize

namespace Files

def node? (fs : Files) (pos : Place) : Option Node :=
  if pos = [] then some .folder else (fs.entries.get? pos).map Entry.node

def isRemovable (fs : Files) (pos : Place) : Bool :=
  (fs.entries.get? pos).any Entry.removable

/-- Where the steps of a path start. -/
def origin (p : Path) (start : Place) : Place := if p.isAbsolute then [] else start

/-- Where the steps lead, following at most `links` links; nowhere where a step cannot be looked up,
whatever the reason is. A link at the very end is not followed; a slash or a dot behind it makes it
no longer the end. -/
def walk (fs : Files) (links : Nat) (pos : Place) : List String → Option Place
  | [] => some pos
  | name :: steps =>
    if isStay name then fs.walk links pos steps
    else if name = ".." then fs.walk links pos.dropLast steps
    else if isTooLong name then none
    else
      let next := pos ++ [name]
      match fs.node? next with
      | none => none
      | some .folder => fs.walk links next steps
      | some .file => if steps.isEmpty then some next else none
      | some (.link target) =>
        if steps.isEmpty then some next
        else
          match links with
          | 0 => none
          | links + 1 =>
            if target.isUsable then fs.walk links (origin target pos) (target.steps ++ steps)
            else none
termination_by steps => (links, steps.length)

/-- How many links a walk may follow. -/
def linkLimit : Nat := 40

/-- The place of what a path names. -/
def locate (fs : Files) (p : Path) : Option Place :=
  if p.isUsable then fs.walk linkLimit (origin p fs.here) p.steps else none

def status (fs : Files) (p : Path) : Option Node := (fs.locate p).bind fs.node?

def put (fs : Files) (pos : Place) (n : Node) : Files :=
  { fs with entries := fs.entries.insert pos ⟨n, true⟩ }

def erase (fs : Files) (pos : Place) : Files := { fs with entries := fs.entries.erase pos }

/-- The folder at the end of the steps, made with all that is missing on the way. -/
def makeFolders (fs : Files) (links : Nat) (pos : Place) : List String → Option (Files × Place)
  | [] => some (fs, pos)
  | name :: steps =>
    if isStay name then fs.makeFolders links pos steps
    else if name = ".." then fs.makeFolders links pos.dropLast steps
    else if isTooLong name then none
    else
      let next := pos ++ [name]
      match fs.node? next with
      | none => (fs.put next .folder).makeFolders links next steps
      | some .folder => fs.makeFolders links next steps
      | some .file => none
      | some (.link target) =>
        match links with
        | 0 => none
        | links + 1 => fs.makeFolders links (origin target pos) (target.steps ++ steps)
termination_by steps => (links, steps.length)

def makeFolder (fs : Files) (p : Path) : Option Files :=
  (fs.makeFolders linkLimit (origin p fs.here) p.steps).map Prod.fst

/-- The folder a path's last step is taken in, made where it is missing, and that step. -/
def enterParent (fs : Files) (p : Path) : Option (Files × Place × String) :=
  match p.steps.getLast? with
  | none => none
  | some name =>
    if isStay name || name == ".." || isTooLong name then none
    else (fs.makeFolders linkLimit (origin p fs.here) p.steps.dropLast).map fun (fs, pos) =>
      (fs, pos, name)

/-- Writes a file at a place, or where the links from there lead. -/
def writeAt (fs : Files) : (links : Nat) → Place → String → Option Files
  | links, pos, name =>
    match fs.node? (pos ++ [name]) with
    | none => some (fs.put (pos ++ [name]) .file)
    | some .file => some fs
    | some .folder => none
    | some (.link target) =>
      match links, target.steps.getLast? with
      | links + 1, some last =>
        match fs.walk links (origin target pos) (target.steps.dropLast ++ ["."]) with
        | none => none
        | some folder => fs.writeAt links folder last
      | _, _ => none

def write (fs : Files) (p : Path) : Option Files :=
  match fs.enterParent p with
  | none => none
  | some (fs, pos, name) => fs.writeAt linkLimit pos name

def link (fs : Files) (p target : Path) : Option Files :=
  match fs.enterParent p with
  | none => none
  | some (fs, pos, name) =>
    if (fs.node? (pos ++ [name])).isSome then none else some (fs.put (pos ++ [name]) (.link target))

/-- An empty working folder whose own name cannot be spelled, and one file that cannot be removed.
-/
def initial : Files where
  entries := ⟨[([""], ⟨.folder, false⟩), (["proc"], ⟨.folder, false⟩),
    (["proc", "version"], ⟨.file, false⟩)]⟩
  here := [""]

/-- What became of a path whose file was to be removed. -/
inductive Removal where
  | absent | folder | kept | removed
  deriving DecidableEq

/-- Removes what a path names: a file or a link itself, where the system allows it. -/
def remove (fs : Files) (p : Path) : Files × Removal :=
  match fs.locate p with
  | none => (fs, .absent)
  | some pos =>
    match fs.node? pos with
    | none => (fs, .absent)
    | some .folder => (fs, .folder)
    | some _ => if fs.isRemovable pos then (fs.erase pos, .removed) else (fs, .kept)

end Files
end PipelineCache
