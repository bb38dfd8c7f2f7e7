import JvmEdit.Program.Resolve
import JvmEdit.Text.Quoted
set_option autoImplicit false

namespace JvmEdit

inductive Violation
  | classKeys (name : String) (keys : List String)
  | fieldKeys (key : String) (keys : List String)
  | methodKeys (key : String) (keys : List String)
  | fieldOwner (id : FieldId)
  | methodOwner (id : MethodId)
  | typeReference (name : String) (ref : InsnRef)
  | fieldReference (key : String) (ref : InsnRef)
  | invocation (key : String) (ref : InsnRef)
  deriving DecidableEq, Repr

namespace Violation

def message : Violation → String
  | classKeys name keys => s!"class {name} is indexed under {Text.quoteList keys}"
  | fieldKeys key keys => s!"field {key} is indexed under {Text.quoteList keys}"
  | methodKeys key keys => s!"method {key} is indexed under {Text.quoteList keys}"
  | fieldOwner id => s!"field {id} has no live owner"
  | methodOwner id => s!"method {id} has no live owner"
  | typeReference name ref => s!"class {name} has stale type reference {ref}"
  | fieldReference key ref => s!"field {key} has stale reference {ref}"
  | invocation key ref => s!"method {key} has stale invocation {ref}"

end Violation

namespace Program

-- The recorded instructions that no longer name `target`.
def stale (p : Program) (target : Target) (refs : OrderedSet InsnRef) : List InsnRef :=
  refs.toList.filter fun ref => p.target? ref ≠ some target

def classViolations (p : Program) (id : ClassId) : List Violation :=
  match p.class? id with
  | none => []
  | some c =>
      let keys := p.index.classes.keysOf id
      (if keys = [c.name] then [] else [.classKeys c.name keys]) ++
        (p.stale (.class id) c.typeReferences).map (.typeReference c.name)

def fieldViolations (p : Program) (id : FieldId) : List Violation :=
  match p.field? id, p.fieldKey? id with
  | some f, some key =>
      let keys := p.index.fields.keysOf id
      (if keys = [key] then [] else [.fieldKeys key keys]) ++
        (p.stale (.field id) f.references).map (.fieldReference key)
  | _, _ => [.fieldOwner id]

def methodViolations (p : Program) (id : MethodId) : List Violation :=
  match p.method? id, p.methodKey? id with
  | some m, some key =>
      let keys := p.index.methods.keysOf id
      (if keys = [key] then [] else [.methodKeys key keys]) ++
        (p.stale (.method id) m.invocations).map (.invocation key)
  | _, _ => [.methodOwner id]

def violations (p : Program) : List Violation :=
  p.classIds.flatMap p.classViolations ++ p.fieldIds.flatMap p.fieldViolations ++
    p.methodIds.flatMap p.methodViolations

end Program

end JvmEdit
