import JvmEdit.ClassFile.Encode
import JvmEdit.Pass.Work
set_option autoImplicit false

namespace JvmEdit

namespace Output

def encode [Libraries] (id : ClassId) : Work (Option (String × List UInt8)) := do
  let p ← Work.program
  match p.className? id with
  | none => return none
  | some name =>
      match ClassFile.encode p id with
      | .ok bytes => return some (s!"{name}.class", bytes)
      | .error error => do
          modify (·.warn (.classNotWritten name error))
          return none

def createDirectory (path : String) : Work Unit := do
  let context ← get
  let (files, isThere) := context.files.createDirectory path
  set { context with files }
  if !isThere then throw (.notCreated path)

def write (path : String) (bytes : List UInt8) (fault : PassFault) : Work Unit := do
  let context ← get
  match context.files.write? path bytes with
  | some files => set { context with files }
  | none => throw fault

def visitArchive [Libraries] (entries : Table String (List UInt8)) (id : ClassId) :
    Work (Table String (List UInt8)) := do
  match ← encode id with
  | some (name, bytes) => return entries.insert name bytes
  | none => return entries

def finishArchive [Libraries] (path : String) (entries : Table String (List UInt8)) : Work Unit := do
  match Path.parent? path with
  | some parent => createDirectory parent
  | none => pure ()
  write path [] (.notCreated path)
  match Libraries.packArchive entries.toList with
  | .error name => throw (.notAdded name path)
  | .ok bytes => write path bytes (.notWritten path)
  Work.record (some (.file path)) s!"wrote {entries.size} classes"

def visitDirectory [Libraries] (directory : String) (written : Nat) (id : ClassId) : Work Nat := do
  match ← encode id with
  | none => return written
  | some (name, bytes) => do
      let path := Path.join directory name
      match Path.parent? path with
      | some parent => createDirectory parent
      | none => pure ()
      write path bytes (.notWritten path)
      return written + 1

def finishDirectory (directory : String) (written : Nat) : Work Unit :=
  Work.record (some (.file directory)) s!"wrote {written} classes"

end Output

end JvmEdit
