import JvmEdit.Pass.Override
import JvmEdit.Pass.Work
set_option autoImplicit false

namespace JvmEdit

-- Names and descriptors that are used without being bound.
structure HiddenUses where
  fields : List (String × String) := []
  methods : List (String × String) := []
  deriving DecidableEq, Repr, Inhabited

namespace HiddenUses

-- Kinds up to this one read or write a field; the others call a method.
def lastFieldKind : UInt8 := 4

def addHandle (u : HiddenUses) : Constant → HiddenUses
  | .methodHandle kind _ name descriptor _ =>
      if kind ≤ lastFieldKind then { u with fields := (name, descriptor) :: u.fields }
      else { u with methods := (name, descriptor) :: u.methods }
  | _ => u

def addOperand (p : Program) (context : ClassId) (u : HiddenUses) (operand : Operand) : HiddenUses :=
  match operand with
  | .constant value => u.addHandle value
  | .field use =>
      if (p.lookup? (some context) operand).isSome then u
      else { u with fields := (use.name, use.descriptor) :: u.fields }
  | .call call =>
      if (p.lookup? (some context) operand).isSome then u
      else { u with methods := (call.name, call.descriptor) :: u.methods }
  | _ => u

def addMethod (p : Program) (u : HiddenUses) (m : Method) : HiddenUses :=
  m.code.toList.foldl (fun u i => u.addOperand p m.owner i.operand) u

def addBootstrap (u : HiddenUses) (b : BootstrapMethod) : HiddenUses :=
  b.arguments.foldl addHandle (u.addHandle b.handle)

def addClass (u : HiddenUses) (c : Class) : HiddenUses := c.bootstrapMethods.foldl addBootstrap u

def ofProgram (p : Program) : HiddenUses :=
  p.classes.values.foldl addClass (p.methods.values.foldl (addMethod p) {})

def hasField (u : HiddenUses) (f : Field) : Bool := u.fields.contains (f.name, f.descriptor)

def hasMethod (u : HiddenUses) (m : Method) : Bool := u.methods.contains (m.name, m.descriptor)

end HiddenUses

namespace Remover

-- What a visit goes by: the hidden uses that the pass holds, or else those of the program.
def uses (hidden : Option HiddenUses) (p : Program) : HiddenUses := hidden.getD (.ofProgram p)

-- The hidden uses of the program at the first visit; later visits keep to them.
def settle (hidden : Option HiddenUses) : Work HiddenUses :=
  match hidden with
  | some uses => pure uses
  | none => return .ofProgram (← Work.program)

-- Serialisation reads this field by its name.
def serialVersion : String := "serialVersionUID"

def isUnusedField (hidden : HiddenUses) (f : Field) : Bool :=
  f.references.isEmpty && f.name ≠ serialVersion && !f.access.isEnum && !hidden.hasField f

def isUnusedMethod (hidden : HiddenUses) (m : Method) : Bool :=
  m.invocations.isEmpty && !m.access.isAbstract && !m.access.isNative && !hidden.hasMethod m

-- A method without a body, outside an interface, that no call names.
def isUnusedAbstract (p : Program) (hidden : HiddenUses) (m : Method) : Bool :=
  m.access.isAbstract && m.invocations.isEmpty && !hidden.hasMethod m &&
    !((p.class? m.owner).any fun c => c.access.isInterface)

def visitField [Libraries] (hidden : Option HiddenUses) (id : FieldId) : Work (Option HiddenUses) := do
  let uses ← settle hidden
  if ((← Work.program).field? id).any (isUnusedField uses) then Work.edit (·.deleteField id)
  return some uses

def visitMethod [Libraries] (hidden : Option HiddenUses) (id : MethodId) : Work
    (Option HiddenUses) := do
  let uses ← settle hidden
  let p ← Work.program
  if (p.method? id).any (isUnusedMethod uses) && !p.isEntryPoint id && !p.inOverrideFamily id then
    Work.edit (·.deleteMethod id)
  return some uses

def visitAbstract [Libraries] (hidden : Option HiddenUses) (id : MethodId) : Work
    (Option HiddenUses) := do
  let uses ← settle hidden
  let p ← Work.program
  if (p.method? id).any (isUnusedAbstract p uses) then Work.edit (·.deleteMethod id)
  return some uses

end Remover

end JvmEdit
