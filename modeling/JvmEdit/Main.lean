import JvmEdit.CommandLine
set_option autoImplicit false

namespace JvmEdit

namespace Disk

def pathOf (location : Location) : String := "/" ++ String.intercalate "/" location

def locationOf (path : String) : Location := (Path.names path).filter (· ≠ "")

-- Where the disk keeps what a location leads to, if it leads anywhere.
def real? (location : Location) : IO (Option Location) := do
  match ← (IO.FS.realPath (pathOf location)).toBaseIO with
  | .ok place => return some (locationOf place.toString)
  | .error _ => return none

-- Adds a file or a directory that stands at its own place. A file that cannot be read is added as
-- a link to itself, which leads nowhere.
def addReal (tree : FileTree) (location : Location) : IO FileTree := do
  let above := (tree.makeDirectories [] location.dropLast).1
  let place ← IO.FS.realPath (pathOf location)
  if ← place.isDir then return (above.makeDirectories [] location).1
  match ← (IO.FS.readBinFile place).toBaseIO with
  | .ok bytes => return above.put location (.file bytes.toList)
  | .error _ => return above.put location (.link (pathOf location))

-- Adds what stands at a location inside a directory that is in the tree; answers where it is.
def addEntry (tree : FileTree) (location : Location) : IO (FileTree × Location) := do
  match ← real? location with
  | none => return (tree, location)
  | some place =>
      let tree ← addReal tree place
      if place = location then return (tree, place)
      return (tree.put location (.link (pathOf place)), place)

-- Adds what the names of a path lead past; answers where they lead.
def addNames (tree : FileTree) (location : Location) : List String → IO (FileTree × Location)
  | [] => return (tree, location)
  | name :: rest => do
      if name = "" || name = "." then addNames tree location rest
      else if name = ".." then addNames tree location.dropLast rest
      else
        let (tree, place) ← addEntry tree (location ++ [name])
        addNames tree place rest

def addPath (tree : FileTree) (path : String) : IO (FileTree × Location) :=
  addNames tree (FileTree.origin path tree.workingDirectory) (Path.names path)

-- Adds everything below directories, each of them once.
partial def addBelow (tree : FileTree) (seen : List Location) : List Location → IO FileTree
  | [] => return tree
  | location :: rest => do
      if tree.entry? location ≠ some .directory || seen.contains location then
        addBelow tree seen rest
      else
        let listed ← (← IO.FS.realPath (pathOf location)).readDir
        let (tree, places) ← listed.foldlM (fun (tree, places) entry => do
          let (tree, place) ← addEntry tree (location ++ [entry.fileName])
          return (tree, place :: places)) (tree, rest)
        addBelow tree (location :: seen) places

-- Adds what a path leads to, and all that is below.
def addWhole (tree : FileTree) (path : String) : IO FileTree := do
  let (tree, place) ← addPath tree path
  addBelow tree [] [place]

-- The files that a run may look at or write to.
def picture (input : String) (o : CommandLine.Options) : IO FileTree := do
  let tree := FileTree.inside (locationOf (← IO.currentDir).toString)
  let tree ← (input :: o.classOut.toList).foldlM addWhole tree
  (o.settings.toList ++ o.output.toList ++ o.jarOut.toList).foldlM
    (fun tree path => do return (← addPath tree path).1) tree

def save (before after : FileTree) : IO Unit :=
  after.entries.forM fun (location, entry) => do
    if before.entry? location ≠ some entry then
      match entry with
      | .directory => IO.FS.createDirAll (pathOf location)
      | .file bytes => IO.FS.writeBinFile (pathOf location) ⟨bytes.toArray⟩
      | .link _ => pure ()

end Disk

namespace CommandLine

def usage : String :=
  s!"Usage: {programName} --input <PATH> [--settings <PATH>] [--threads <N>] [--pass <ID>]... " ++
    "[--output <PATH>] [--jar-out <PATH>] [--class-out <DIR>] [--quiet] [--timing]"

def warningLine (warning : Warning) : String :=
  "WARN " ++ String.intercalate " " (warning.parts.map fun (name, text) =>
    if name = "message" then text else s!"{name}={text}")

def Request.picture : Request → IO FileTree
  | .run input options => Disk.picture input options
  | _ => return .empty

def runOnDisk [Libraries] (arguments : List String) : IO UInt32 := do
  let started ← IO.monoMsNow
  let request := parse arguments
  let files ← request.picture
  let outcome := run arguments files
  Disk.save files outcome.files
  outcome.warnings.forM fun warning => IO.eprintln (warningLine warning)
  IO.print outcome.printed
  match outcome.failure with
  | some message => IO.eprintln s!"Error: {message}"
  | none => pure ()
  if request = .invalid then IO.eprintln usage
  match request, outcome.counts with
  | .run _ options, some counts =>
      if options.timing && !options.quiet then
        IO.eprintln (s!"timing: total_ms={(← IO.monoMsNow) - started} classes={counts.classes} " ++
          s!"artifacts={counts.artifacts} edits={counts.changes}")
  | _, _ => pure ()
  return outcome.exitCode.toUInt32

end CommandLine

end JvmEdit

def main (arguments : List String) : IO UInt32 := JvmEdit.CommandLine.runOnDisk arguments
