import JvmEdit.Entity
import JvmEdit.Program.Error
import JvmEdit.Program.Index
import JvmEdit.Settings
set_option autoImplicit false

namespace JvmEdit

structure Program where
  settings : Settings := {}
  -- An idealisation: a counter of 32 bits would come round after 2^32 draws and give identities out
  -- a second time; this one has no bound, and what is proved of fresh identities is about programs
  -- that draw fewer.
  nextId : Nat := 1
  index : NameIndex := .empty
  classes : Table ClassId Class := .empty
  fields : Table FieldId Field := .empty
  methods : Table MethodId Method := .empty
  deriving DecidableEq, Repr, Inhabited

namespace Program

def new (settings : Settings) : Program := { settings }

-- Drops every entity and every index entry; the counter goes on.
def clear (p : Program) : Program := { settings := p.settings, nextId := p.nextId }

-- Skips `count` identities.
def advance (p : Program) (count : Nat) : Program := { p with nextId := p.nextId + count }

def class? (p : Program) (id : ClassId) : Option Class := p.classes.get? id

def field? (p : Program) (id : FieldId) : Option Field := p.fields.get? id

def method? (p : Program) (id : MethodId) : Option Method := p.methods.get? id

def updateClass (p : Program) (id : ClassId) (f : Class → Class) : Program :=
  { p with classes := p.classes.modify id f }

def updateField (p : Program) (id : FieldId) (f : Field → Field) : Program :=
  { p with fields := p.fields.modify id f }

def updateMethod (p : Program) (id : MethodId) (f : Method → Method) : Program :=
  { p with methods := p.methods.modify id f }

def updateIndex (p : Program) (f : NameIndex → NameIndex) : Program :=
  { p with index := f p.index }

def classIds (p : Program) : List ClassId := p.classes.keys

def fieldIds (p : Program) : List FieldId := p.fields.keys

def methodIds (p : Program) : List MethodId := p.methods.keys

def findClass? (p : Program) (name : String) : Option ClassId := p.index.classes.get? name

def findFieldKey? (p : Program) (key : String) : Option FieldId := p.index.fields.get? key

def findMethodKey? (p : Program) (key : String) : Option MethodId := p.index.methods.get? key

def findField? (p : Program) (owner name : String) : Option FieldId :=
  p.findFieldKey? (Key.field owner name)

def findMethod? (p : Program) (owner name descriptor : String) : Option MethodId :=
  p.findMethodKey? (Key.method owner name descriptor)

def className? (p : Program) (id : ClassId) : Option String := (p.class? id).map (·.name)

def methodNamed (p : Program) (name : String) (id : MethodId) : Bool :=
  (p.method? id).any (·.name = name)

def fieldNamed (p : Program) (name : String) (id : FieldId) : Bool :=
  (p.field? id).any (·.name = name)

def findMethodByName? (p : Program) (name : String) : Option MethodId :=
  p.methodIds.find? fun id => p.index.methods.values.contains id && p.methodNamed name id

def findFieldByName? (p : Program) (name : String) : Option FieldId :=
  p.fieldIds.find? fun id => p.index.fields.values.contains id && p.fieldNamed name id

def methodByName? (p : Program) (owner : ClassId) (name : String) : Option MethodId :=
  (p.class? owner).bind fun c => c.methods.find? (p.methodNamed name)

def fieldByName? (p : Program) (owner : ClassId) (name : String) : Option FieldId :=
  (p.class? owner).bind fun c => c.fields.find? (p.fieldNamed name)

def superclass? (p : Program) (id : ClassId) : Option ClassId :=
  ((p.class? id).bind (·.superName)).bind p.findClass?

def fieldKey? (p : Program) (id : FieldId) : Option String :=
  (p.field? id).bind fun f => (p.className? f.owner).map fun owner => Key.field owner f.name

def methodKey? (p : Program) (id : MethodId) : Option String :=
  (p.method? id).bind fun m =>
    (p.className? m.owner).map fun owner => Key.method owner m.name m.descriptor

def instruction? (p : Program) (ref : InsnRef) : Option Instruction :=
  (p.method? ref.method).bind fun m => m.code.get? ref.insn

def annotateClass (p : Program) (id : ClassId) (a : Annotation) : Program :=
  p.updateClass id fun c => { c with annotations := c.annotations ++ [a] }

def annotateField (p : Program) (id : FieldId) (a : Annotation) : Program :=
  p.updateField id fun f => { f with annotations := f.annotations ++ [a] }

def annotateMethod (p : Program) (id : MethodId) (a : Annotation) : Program :=
  p.updateMethod id fun m => { m with annotations := m.annotations ++ [a] }

def updateOperand (p : Program) (ref : InsnRef) (f : Operand → Operand) : Program :=
  p.updateMethod ref.method fun m =>
    { m with code := m.code.update ref.insn fun i => { i with operand := f i.operand } }

-- Puts a field under a class, in its list and in the index, unless another field holds the key.
def attachField (p : Program) (owner : ClassId) (id : FieldId) (field : Field) :
    Except EditError Program :=
  match p.className? owner with
  | none => .error (.unknownClass owner)
  | some ownerName =>
      let key := Key.field ownerName field.name
      if (p.findFieldKey? key).any (· ≠ id) then .error (.nameTaken key)
      else
        let stored := { p with
          fields := p.fields.insert id { field with owner },
          index := p.index.insertField key id }
        .ok (stored.updateClass owner fun c => { c with fields := c.fields ++ [id] })

def attachMethod (p : Program) (owner : ClassId) (id : MethodId) (method : Method) :
    Except EditError Program :=
  match p.className? owner with
  | none => .error (.unknownClass owner)
  | some ownerName =>
      let key := Key.method ownerName method.name method.descriptor
      if (p.findMethodKey? key).any (· ≠ id) then .error (.nameTaken key)
      else
        let stored := { p with
          methods := p.methods.insert id { method with owner },
          index := p.index.insertMethod key id }
        .ok (stored.updateClass owner fun c => { c with methods := c.methods ++ [id] })

theorem class?_update_class (p : Program) (id other : ClassId) (f : Class → Class) :
    (p.updateClass id f).class? other = if id = other then (p.class? other).map f else p.class? other :=
  Table.get?_modify p.classes id other f

theorem field?_update_field (p : Program) (id other : FieldId) (f : Field → Field) :
    (p.updateField id f).field? other = if id = other then (p.field? other).map f else p.field? other :=
  Table.get?_modify p.fields id other f

theorem method?_update_method (p : Program) (id other : MethodId) (f : Method → Method) :
    (p.updateMethod id f).method? other =
      if id = other then (p.method? other).map f else p.method? other :=
  Table.get?_modify p.methods id other f

end Program

end JvmEdit
