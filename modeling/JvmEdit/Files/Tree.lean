import JvmEdit.Files.Path
set_option autoImplicit false

namespace JvmEdit

inductive FileEntry
  | file (bytes : List UInt8)
  | link (target : String)
  | directory
  deriving DecidableEq, Repr, Inhabited

abbrev Location := List String

inductive Resolution
  | found (location : Location) (entry : FileEntry)
  -- A free name in a directory that exists.
  | missing (location : Location)
  | unreachable
  deriving DecidableEq, Repr, Inhabited

structure FileTree where
  entries : List (Location × FileEntry) := []
  workingDirectory : Location := []
  deriving DecidableEq, Repr, Inhabited

namespace FileTree

def empty : FileTree := {}

def linkLimit : Nat := 40

def nameLimit : Nat := 255

-- Bytes in a path, with one to spare.
def pathLimit : Nat := 4096

def origin (path : String) (location : Location) : Location :=
  if Path.isAbsolute path then [] else location

def entry? (t : FileTree) (location : Location) : Option FileEntry :=
  if location = [] then some .directory
  else (t.entries.find? (·.1 = location)).map (·.2)

def put (t : FileTree) (location : Location) (entry : FileEntry) : FileTree :=
  if t.entries.any (·.1 = location) then
    { t with entries := t.entries.map fun row =>
        if row.1 = location then (location, entry) else row }
  else { t with entries := t.entries ++ [(location, entry)] }

def walk (t : FileTree) (links : Nat) (location : Location) : List String → Resolution
  | [] => ((t.entry? location).map (.found location)).getD .unreachable
  | name :: rest =>
      if t.entry? location ≠ some .directory then .unreachable
      else if name = "" || name = "." then t.walk links location rest
      else if name = ".." then t.walk links location.dropLast rest
      else if nameLimit < name.utf8ByteSize then .unreachable
      else
        match t.entry? (location ++ [name]) with
        | none => if rest = [] then .missing (location ++ [name]) else .unreachable
        | some (.link target) =>
            match links with
            | 0 => .unreachable
            | links + 1 => t.walk links (origin target location) (Path.names target ++ rest)
        | some _ => t.walk links (location ++ [name]) rest
termination_by names => (links, names.length)

-- Text that can name a file at all.
def isPath (path : String) : Bool :=
  path ≠ "" && !path.contains '\x00' && path.utf8ByteSize < pathLimit

def resolve (t : FileTree) (path : String) : Resolution :=
  if isPath path then t.walk linkLimit (origin path t.workingDirectory) (Path.names path)
  else .unreachable

def has (t : FileTree) (path : String) : Bool :=
  match t.resolve path with
  | .found _ _ => true
  | _ => false

def isDirectory (t : FileTree) (path : String) : Bool :=
  match t.resolve path with
  | .found _ .directory => true
  | _ => false

def read? (t : FileTree) (path : String) : Option (List UInt8) :=
  match t.resolve path with
  | .found _ (.file bytes) => some bytes
  | _ => none

def write? (t : FileTree) (path : String) (bytes : List UInt8) : Option FileTree :=
  match t.resolve path with
  | .found location (.file _) => some (t.put location (.file bytes))
  | .missing location => some (t.put location (.file bytes))
  | _ => none

-- Makes every missing directory along some names, up to the first that is in the way.
def makeDirectories (t : FileTree) (location : Location) : List String → FileTree × Bool
  | [] => (t, true)
  | name :: rest =>
      if name = "" || name = "." then t.makeDirectories location rest
      else if name = ".." then t.makeDirectories location.dropLast rest
      else if nameLimit < name.utf8ByteSize then (t, false)
      else
        match t.walk linkLimit location [name], t.entry? (location ++ [name]) with
        | .found inside .directory, _ => t.makeDirectories inside rest
        | .missing _, none =>
            (t.put (location ++ [name]) .directory).makeDirectories (location ++ [name]) rest
        | _, _ => (t, false)

-- A directory and those above it; the second part tells whether it is there now.
def createDirectory (t : FileTree) (path : String) : FileTree × Bool :=
  if path = "" then (t, true)
  else if isPath path then t.makeDirectories (origin path t.workingDirectory) (Path.names path)
  else (t, false)

def inside (location : Location) : FileTree :=
  { (makeDirectories empty [] location).1 with workingDirectory := location }

def childrenOf (t : FileTree) (location : Location) : List String :=
  t.entries.filterMap fun row =>
    if row.1 ≠ [] && row.1.dropLast = location then row.1.getLast? else none

def list (t : FileTree) (path : String) : List String :=
  match t.resolve path with
  | .found location .directory =>
      ((t.childrenOf location).map (Path.join path)).mergeSort fun a b => decide (a ≤ b)
  | _ => []

-- How deep paths can lead: between two links a path never visits an entry twice.
def depthLimit (t : FileTree) : Nat := (linkLimit + 1) * (t.entries.length + 1)

def filesWithin (t : FileTree) (path : String) : Nat → List String
  | 0 => []
  | depth + 1 =>
      if t.isDirectory path then (t.list path).flatMap fun inner => t.filesWithin inner depth
      else [path]

-- Everything below a path that is not a directory, or the path itself, each directory in order.
def files (t : FileTree) (path : String) : List String := t.filesWithin path (t.depthLimit + 1)

def plant (t : FileTree) (path : String) (entry : FileEntry) : FileTree :=
  let above := ((Path.parent? path).map t.createDirectory).getD (t, true)
  match above.1.resolve path with
  | .missing location => above.1.put location entry
  | .found location _ => above.1.put location entry
  | .unreachable => above.1

end FileTree

end JvmEdit
