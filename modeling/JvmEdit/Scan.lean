import JvmEdit.ClassFile.Decode
import JvmEdit.Files.Tree
import JvmEdit.Program.Flow
import JvmEdit.Program.Hierarchy
import JvmEdit.Program.Resolve
import JvmEdit.Report
set_option autoImplicit false

namespace JvmEdit

-- The phases are folds, not loops on a pool of workers, so there is no fault for a pool that cannot be
-- started. A file or directory that cannot be read always has its path.
inductive ScanError
  | noInput
  | inputNotFound (path : String)
  | uninitialized
  | unsupported (path : String)
  | read (path : String)
  | archive (reason : String)
  deriving DecidableEq, Repr, Inhabited

namespace ScanError

def message : ScanError → String
  | noInput => "no input location was set for the scanner"
  | inputNotFound path => s!"input not found: {path}"
  | uninitialized => "the scanner has not been run; call scan() before launching passes"
  | unsupported path => s!"unsupported input file: {path}"
  | read path => s!"failed to read {path}"
  | archive reason => reason

end ScanError

structure ClassSource where
  origin : String
  bytes : List UInt8
  deriving DecidableEq, Repr, Inhabited

structure Collection where
  artifacts : List Artifact := []
  sources : List ClassSource := []
  deriving DecidableEq, Repr, Inhabited

namespace Collection

def add (c : Collection) (artifact : Artifact) (bytes : List UInt8) : Collection :=
  { artifacts := c.artifacts ++ [artifact], sources := c.sources ++ [⟨artifact.uri, bytes⟩] }

def addClassFile (files : FileTree) (isTarget : Bool) (c : Collection) (path : String) :
    Except ScanError Collection :=
  match files.read? path with
  | none => .error (.read path)
  | some bytes => .ok (c.add { uri := path, length := bytes.length, isTarget } bytes)

-- Entries that hold classes; descriptions of modules do not.
def isClassEntry (name : String) : Bool :=
  name.endsWith ".class" && !name.endsWith "module-info.class"

def addEntry (path : String) (parent : Nat) (c : Collection) (entry : ArchiveEntry) :
    Except ScanError Collection :=
  match entry.content? with
  | none => .error (.read path)
  | some bytes =>
      .ok (c.add { uri := s!"jar:{path}!/{entry.name}", length := entry.size, parent := some parent }
        bytes)

def addArchive [Libraries] (files : FileTree) (isTarget : Bool) (c : Collection) (path : String) :
    Except ScanError Collection :=
  match files.read? path with
  | none => .error (.read path)
  | some bytes =>
      match Libraries.openArchive bytes >>= (·.mapM id) with
      | .error reason => .error (.archive reason)
      | .ok entries =>
          let jar : Artifact := { uri := path, length := bytes.length, isTarget }
          let classes := (entries.filter fun e => isClassEntry e.name).mergeSort
            fun a b => decide (a.name ≤ b.name)
          classes.foldlM (addEntry path c.artifacts.length) { c with artifacts := c.artifacts ++ [jar] }

-- Only class files and archives hold classes; only the input itself must be one of them.
def addFile [Libraries] (files : FileTree) (isTarget : Bool) (c : Collection) (path : String) :
    Except ScanError Collection :=
  match Path.extension? path with
  | some "class" => addClassFile files isTarget c path
  | some "jar" => addArchive files isTarget c path
  | _ => if isTarget then .error (.unsupported path) else .ok c

-- Everything below an input, a directory's contents in the order of their paths.
def ofInput [Libraries] (files : FileTree) (input : String) : Except ScanError Collection :=
  if !files.has input then .error (.inputNotFound input)
  else if files.isDirectory input then (files.files input).foldlM (addFile files false) {}
  else addFile files true {} input

end Collection

structure ScanOutput where
  artifacts : List Artifact := []
  -- Classes in the order of their sources.
  classes : List ClassId := []
  origins : List (ClassId × String) := []
  decodeFailures : Nat := 0
  flowFailures : Nat := 0
  deriving DecidableEq, Repr, Inhabited

structure Scanned where
  program : Program
  output : ScanOutput := {}
  deriving Inhabited

namespace Scanned

-- Decodes one source into the program. A class that cannot be decoded changes nothing else.
def loadSource [Libraries] (s : Scanned) (source : ClassSource) : Logged Scanned :=
  match ClassFile.decode source.bytes s.program.settings.skipDebug with
  | .error error => do
      Logged.warn (.classSkipped source.origin error)
      return { s with output.decodeFailures := s.output.decodeFailures + 1 }
  | .ok decoded => do
      let loaded ← s.program.load (← decoded).events
      return { program := loaded.program
               output := { s.output with
                 classes := s.output.classes ++ loaded.created
                 origins := s.output.origins ++ loaded.created.map fun id => (id, source.origin) } }

-- Decodes all sources, then links, resolves and analyses the whole program.
def ofCollection [Libraries] (p : Program) (c : Collection) : Logged Scanned := do
  let loaded ← c.sources.foldlM loadSource { program := p, output.artifacts := c.artifacts }
  let built ← loaded.program.linkHierarchy.resolveAll.1.buildAll
  return { program := built
           output := { loaded.output with flowFailures := built.flowFailures.length } }

end Scanned

namespace Program

def scan [Libraries] (p : Program) (files : FileTree) (input : String) : Except ScanError
    (Logged Scanned) :=
  (Collection.ofInput files input).map (Scanned.ofCollection p)

end Program

end JvmEdit
