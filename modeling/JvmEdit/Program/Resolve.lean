import JvmEdit.Descriptor.Signature
import JvmEdit.Program.Basic
set_option autoImplicit false

namespace JvmEdit

inductive Target
  | field (id : FieldId)
  | method (id : MethodId)
  | class (id : ClassId)
  deriving DecidableEq, Repr

namespace FieldUse

def key (u : FieldUse) : String := Key.field u.owner u.name

end FieldUse

namespace Call

def key (c : Call) : String := Key.method c.owner c.name c.descriptor

end Call

namespace Operand

-- Instructions that can name a loaded entity.
def isReference : Operand → Bool
  | field _ | call _ => true
  | operand => operand.referencedClass?.isSome

end Operand

namespace Program

-- The field of this name in the superclass of `context`, whether or not that class is loaded.
def inheritedField? (p : Program) (context : Option ClassId) (name : String) : Option FieldId :=
  ((context.bind p.class?).bind (·.superName)).bind fun superName => p.findField? superName name

-- What an operand names, for an instruction that stands in the class `context`. A field is looked
-- for under the owner given with it, and failing that in the superclass of `context`.
def lookup? (p : Program) (context : Option ClassId) : Operand → Option Target
  | .field use =>
      match p.findFieldKey? use.key with
      | some id => some (.field id)
      | none => (p.inheritedField? context use.name).map .field
  | .call call => (p.findMethodKey? call.key).map .method
  | operand =>
      ((operand.referencedClass?.bind ClassName.element?).bind p.findClass?).map .class

-- Records an instruction with its target; recording it again changes nothing.
def record (p : Program) (target : Target) (ref : InsnRef) : Program :=
  match target with
  | .field id => p.updateField id fun f => { f with references := f.references.insert ref }
  | .method id => p.updateMethod id fun m => { m with invocations := m.invocations.insert ref }
  | .class id => p.updateClass id fun c => { c with typeReferences := c.typeReferences.insert ref }

def unrecord (p : Program) (target : Target) (ref : InsnRef) : Program :=
  match target with
  | .field id => p.updateField id fun f => { f with references := f.references.erase ref }
  | .method id => p.updateMethod id fun m => { m with invocations := m.invocations.erase ref }
  | .class id => p.updateClass id fun c => { c with typeReferences := c.typeReferences.erase ref }

def target? (p : Program) (ref : InsnRef) : Option Target :=
  (p.method? ref.method).bind fun m =>
    (m.code.get? ref.insn).bind fun i => p.lookup? (some m.owner) i.operand

def resolveInstruction (p : Program) (ref : InsnRef) : Program × Option Target :=
  match p.target? ref with
  | some target => (p.record target ref, some target)
  | none => (p, none)

-- Takes an instruction out of the records of what its operand names. The instruction itself may
-- be gone already.
def forget (p : Program) (context : ClassId) (ref : InsnRef) (operand : Operand) : Program :=
  match p.lookup? (some context) operand with
  | some target => p.unrecord target ref
  | none => p

-- The instructions of a method that can name an entity.
def referencesOf (p : Program) (id : MethodId) : List Instruction :=
  match p.method? id with
  | some m => m.code.toList.filter (·.operand.isReference)
  | none => []

def resolveMethod (p : Program) (id : MethodId) : Program × Nat :=
  match p.method? id with
  | none => (p, 0)
  | some m =>
      (p.referencesOf id).foldl (fun (q, count) i =>
        match q.lookup? (some m.owner) i.operand with
        | some target => (q.record target ⟨id, i.id⟩, count + 1)
        | none => (q, count)) (p, 0)

def resolveAll (p : Program) : Program × Nat :=
  p.methodIds.foldl (fun (q, count) id =>
    let (q', resolved) := q.resolveMethod id
    (q', count + resolved)) (p, 0)

end Program

end JvmEdit
