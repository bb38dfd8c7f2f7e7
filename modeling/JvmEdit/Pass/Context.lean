import JvmEdit.Edit.Class
import JvmEdit.Edit.Member
import JvmEdit.Files.Tree
set_option autoImplicit false

namespace JvmEdit

inductive ChangeTarget
  | class (name : String)
  | field (owner name : String)
  | method (owner name descriptor : String)
  | file (path : String)
  deriving DecidableEq, Repr, Inhabited

structure Change where
  pass : String
  target : ChangeTarget
  message : String
  deriving DecidableEq, Repr, Inhabited

structure PassContext where
  pass : String
  program : Program
  files : FileTree := .empty
  -- Newest first.
  changes : List Change := []
  -- Newest first.
  warnings : List Warning := []
  deriving Inhabited

namespace PassContext

def record (c : PassContext) (target : ChangeTarget) (message : String) : PassContext :=
  { c with changes := ⟨c.pass, target, message⟩ :: c.changes }

def warn (c : PassContext) (w : Warning) : PassContext := { c with warnings := w :: c.warnings }

-- Goes on with a program that came with warnings.
def accept (c : PassContext) (p : Logged Program) : PassContext :=
  { c with program := p.value, warnings := p.warnings.reverse ++ c.warnings }

def classTarget? (c : PassContext) (id : ClassId) : Option ChangeTarget :=
  (c.program.className? id).map .class

def fieldTarget? (c : PassContext) (id : FieldId) : Option ChangeTarget :=
  (c.program.field? id).bind fun f =>
    (c.program.className? f.owner).map fun owner => .field owner f.name

def methodTarget? (c : PassContext) (id : MethodId) : Option ChangeTarget :=
  (c.program.method? id).bind fun m =>
    (c.program.className? m.owner).map fun owner => .method owner m.name m.descriptor

def annotatesChanges (c : PassContext) : Bool := c.program.settings.annotateChanges

def renamedFrom (old : String) : Annotation := .named "Renamed" [("from", .text old)]

def movedBetween (old new : String) : Annotation :=
  .named "Moved" [("from", .text old), ("to", .text new)]

def annotate (c : PassContext) (f : Program → Program) : PassContext :=
  if c.annotatesChanges then { c with program := f c.program } else c

def renameClass (c : PassContext) (id : ClassId) (new : String) : Except EditError PassContext :=
  match c.program.className? id with
  | none => .error (.unknownClass id)
  | some old => do
      let program ← c.program.renameClass id new
      let renamed := { c with program }.annotate (·.annotateClass id (renamedFrom old))
      return renamed.record (.class old) s!"renamed to {new}"

def renameField (c : PassContext) (id : FieldId) (new : String) : Except EditError PassContext :=
  match c.fieldTarget? id with
  | some (.field owner name) => do
      let program ← c.program.renameField id new
      let renamed := { c with program }.annotate (·.annotateField id (renamedFrom name))
      return renamed.record (.field owner name) s!"renamed to {new}"
  | _ => .error (.unknownField id)

def renameMethod (c : PassContext) (id : MethodId) (new : String) : Except EditError PassContext :=
  match c.methodTarget? id with
  | some (.method owner name descriptor) => do
      let program ← c.program.renameMethod id new
      let renamed := { c with program }.annotate (·.annotateMethod id (renamedFrom name))
      return renamed.record (.method owner name descriptor) s!"renamed to {new}"
  | _ => .error (.unknownMethod id)

def deleteField [Libraries] (c : PassContext) (id : FieldId) : Except EditError PassContext :=
  match c.fieldTarget? id with
  | none => .error (.unknownField id)
  | some target => do
      let program ← c.program.deleteField id
      return (c.accept program).record target "deleted"

def deleteMethod [Libraries] (c : PassContext) (id : MethodId) : Except EditError PassContext :=
  match c.methodTarget? id with
  | none => .error (.unknownMethod id)
  | some target => do
      let program ← c.program.deleteMethod id
      return (c.accept program).record target "deleted"

def moveField (c : PassContext) (id : FieldId) (destination : ClassId) :
    Except EditError PassContext :=
  match c.fieldTarget? id, c.program.className? destination with
  | some (.field owner name), some newOwner => do
      let program ← c.program.moveField id destination
      let moved := { c with program }.annotate (·.annotateField id (movedBetween owner newOwner))
      return moved.record (.field owner name) s!"moved to {newOwner}"
  | some _, none => .error (.unknownClass destination)
  | _, _ => .error (.unknownField id)

def moveMethod (c : PassContext) (id : MethodId) (destination : ClassId) :
    Except EditError PassContext :=
  match c.methodTarget? id, c.program.className? destination with
  | some (.method owner name descriptor), some newOwner => do
      let program ← c.program.moveMethod id destination
      let moved := { c with program }.annotate (·.annotateMethod id (movedBetween owner newOwner))
      return moved.record (.method owner name descriptor) s!"moved to {newOwner}"
  | some _, none => .error (.unknownClass destination)
  | _, _ => .error (.unknownMethod id)

end PassContext

end JvmEdit
