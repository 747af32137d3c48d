import MessageDocs.FileTree

/-! # Access by path

A disk is a file tree with a working directory. A path is followed segment by segment; every
segment but the last has to lead to a directory, also one that leads nowhere, as `.` does. The
working directory may have been removed; then it is empty, and only `..` leads out of it.

* `Disk.locate` finds where a path leads, which need not exist.
* `Disk.readText`, `Disk.writeText` and `Disk.createDirectories` work at a path, or say why not.
-/

set_option autoImplicit false

namespace MessageDocs

/-- Why a path cannot be used. -/
inductive AccessError where
  | notFound
  | alreadyExists
  | notDirectory
  | isDirectory
  | nameTooLong
  | nulCharacter
  | notText
  | noParent
  deriving DecidableEq, Repr

def AccessError.message : AccessError → Text
  | notFound => "No such file or directory (os error 2)"
  | alreadyExists => "File exists (os error 17)"
  | notDirectory => "Not a directory (os error 20)"
  | isDirectory => "Is a directory (os error 21)"
  | nameTooLong => "File name too long (os error 36)"
  | nulCharacter => "file name contained an unexpected NUL byte"
  | notText => "stream did not contain valid UTF-8"
  | noParent => "failed to create whole tree"

structure Disk where
  tree : FileTree
  /-- The working directory. -/
  cwd : Location
  /-- How many directories at the end of `cwd` have been removed since they were entered. -/
  removed : Nat := 0

/-- Where a path leads. -/
inductive Destination where
  | location (loc : Location)
  /-- A removed directory that is still the working directory, or contains it. -/
  | removedDirectory
  deriving DecidableEq, Repr

namespace Disk

/-! ## Following paths -/

/-- The longest name, in bytes, that a file can have. -/
def longestName : Nat := 255

/-- The longest path, in bytes, that can be used. -/
def longestPath : Nat := 4095

def isUsable (p : Path) : Bool :=
  decide (p.text.byteLength ≤ longestPath)

/-- The location that segments lead to from another one. -/
def walk (tree : FileTree) (loc : Location) : List Text → Except AccessError Location
  | [] => .ok loc
  | segment :: rest =>
    match tree.node? loc with
    | none => .error .notFound
    | some (.file _) => .error .notDirectory
    | some .directory =>
      match Path.Component.ofSegment? segment with
      | some .up => walk tree loc.dropLast rest
      | some (.name n) =>
        if longestName < n.byteLength then .error .nameTooLong else walk tree (loc ++ [n]) rest
      | _ => walk tree loc rest

/-- The segments that are left when a path has come out of `n` removed directories; none when it
stays in one of them. -/
def leave : Nat → List Text → Except AccessError (Option (List Text))
  | 0, segments => .ok (some segments)
  | _ + 1, [] => .ok none
  | n + 1, segment :: rest =>
    match Path.Component.ofSegment? segment with
    | some .up => leave n rest
    | some (.name _) => .error .notFound
    | _ => leave (n + 1) rest

/-- The innermost directory around the working directory that has not been removed. -/
def kept (d : Disk) : Location :=
  d.cwd.take (d.cwd.length - d.removed)

/-- Where segments lead, seen from the working directory. -/
def walkFromCwd (d : Disk) (segments : List Text) : Except AccessError Destination :=
  match leave d.removed segments with
  | .error e => .error e
  | .ok none => .ok .removedDirectory
  | .ok (some segments) => (walk d.tree d.kept segments).map .location

/-- Where the segments of a path lead, if the path can be used. -/
def follow (d : Disk) (p : Path) (segments : List Text) : Except AccessError Destination :=
  if p.text = [] then .error .notFound
  else if p.text.contains '\x00' then .error .nulCharacter
  else if !isUsable p then .error .nameTooLong
  else if p.isAbsolute then (walk d.tree [] segments).map .location
  else d.walkFromCwd segments

def locate (d : Disk) (p : Path) : Except AccessError Destination :=
  d.follow p (Path.segmentsOf p.text)

/-- What is at a path. -/
def node (d : Disk) (p : Path) : Except AccessError Node :=
  match d.locate p with
  | .error e => .error e
  | .ok .removedDirectory => .ok .directory
  | .ok (.location loc) =>
    match d.tree.node? loc with
    | some n => .ok n
    | none => .error .notFound

def contains (d : Disk) (p : Path) : Bool :=
  match d.node p with
  | .ok _ => true
  | .error _ => false

def isDirectory (d : Disk) (p : Path) : Bool :=
  match d.node p with
  | .ok .directory => true
  | _ => false

def isFile (d : Disk) (p : Path) : Bool :=
  match d.node p with
  | .ok (.file _) => true
  | _ => false

/-- The working directory as a path, unless it has been removed. -/
def cwdPath? (d : Disk) : Option Path :=
  if d.removed = 0 then some (Path.absolute d.cwd) else none

/-! ## Reading and writing -/

def readText (d : Disk) (p : Path) : Except AccessError Text :=
  match d.node p with
  | .error e => .error e
  | .ok .directory => .error .isDirectory
  | .ok (.file (.binary _)) => .error .notText
  | .ok (.file (.text t)) => .ok t

/-- The disk with a file made or overwritten. -/
def write (d : Disk) (p : Path) (c : Contents) : Except AccessError Disk :=
  match d.locate p with
  | .error e => .error e
  | .ok .removedDirectory => .error .isDirectory
  | .ok (.location loc) =>
    match d.tree.putFile loc c with
    | some tree => .ok { d with tree := tree }
    | none => .error .isDirectory

def writeText (d : Disk) (p : Path) (t : Text) : Except AccessError Disk :=
  d.write p (.text t)

/-- The disk with one directory made; slashes at the end of its path do not count. -/
def createDirectory (d : Disk) (p : Path) : Except AccessError Disk :=
  match d.follow p (Path.segmentsOf (Text.dropTail (· == '/') p.text)) with
  | .error e => .error e
  | .ok .removedDirectory => .error .alreadyExists
  | .ok (.location loc) =>
    match d.tree.putDirectory loc with
    | some tree => .ok { d with tree := tree }
    | none => .error .alreadyExists

/-- The disk after an attempt, and the error if it has failed. -/
structure Attempt where
  disk : Disk
  error : Option AccessError := none

/-- The disk with a directory made at a path. The directory it lies in is made first where it is
missing, and so on for at most `n` directories. -/
def createUpTo : Nat → Disk → Path → Attempt
  | 0, d, _ => ⟨d, some .noParent⟩
  | n + 1, d, p =>
    if p.components = [] then
      ⟨d, none⟩
    else
      match d.createDirectory p with
      | .ok d => ⟨d, none⟩
      | .error .notFound =>
        match p.parent? with
        | none => ⟨d, some .noParent⟩
        | some parent =>
          match createUpTo n d parent with
          | ⟨d, some e⟩ => ⟨d, some e⟩
          | ⟨d, none⟩ =>
            match d.createDirectory p with
            | .ok d => ⟨d, none⟩
            | .error e => ⟨d, if d.isDirectory p then none else some e⟩
      | .error e => ⟨d, if d.isDirectory p then none else some e⟩

/-- The disk with a directory made at a path, and all directories it lies in. -/
def createDirectories (d : Disk) (p : Path) : Attempt :=
  createUpTo (p.components.length + 1) d p

/-! ## Removing -/

/-- The disk without a location. The working directory stays what it is even when it is removed. -/
def remove (d : Disk) (loc : Location) : Disk where
  tree := d.tree.remove loc
  cwd := d.cwd
  removed := if loc.isPrefixOf d.kept then d.cwd.length - (loc.length - 1) else d.removed

/-! ## Showing paths -/

/-- A path as it is shown: relative to the working directory when it lies inside it. -/
def display (d : Disk) (p : Path) : Text :=
  match d.cwdPath?.bind p.stripPrefix? with
  | some rest => if rest.text = [] then "." else rest.text
  | none => p.text

end Disk

end MessageDocs
