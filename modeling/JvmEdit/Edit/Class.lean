import JvmEdit.Edit.Renaming
import JvmEdit.Program.Hierarchy
set_option autoImplicit false

namespace JvmEdit

namespace Program

def nameAfter (p : Program) (id : ClassId) (new : String) (owner : ClassId) : Option String :=
  if owner = id then some new else p.className? owner

-- The key of each method after a renaming, in the order the methods were loaded. A method whose
-- owner is gone counts as one of a class without a name.
def methodKeysAfter (p : Program) (r : Renaming) (id : ClassId) : List String :=
  p.methods.values.map fun m =>
    Key.method ((p.nameAfter id r.new m.owner).getD "") m.name (r.descriptor m.descriptor)

def firstRepeated? (keys : List String) (seen : List String) : Option String :=
  match keys with
  | [] => none
  | key :: keys => if seen.contains key then some key else firstRepeated? keys (key :: seen)

def carryField (r : Renaming) (id : ClassId) (p : Program) (field : FieldId) : Program :=
  let q := p.updateField field r.fieldText
  match q.field? field with
  | some f =>
      if f.owner = id then
        q.updateIndex fun x =>
          (x.eraseField (Key.field r.old f.name) field).insertField (Key.field r.new f.name) field
      else q
  | none => q

def carryMethod (r : Renaming) (id : ClassId) (p : Program) (method : MethodId) : Program :=
  let q := p.updateMethod method r.methodText
  match p.method? method, q.method? method with
  | some before, some m =>
      match p.className? m.owner with
      | none => q
      | some owner =>
          let oldOwner := if m.owner = id then r.old else owner
          let oldKey := Key.method oldOwner m.name before.descriptor
          let newKey := Key.method owner m.name m.descriptor
          if oldKey = newKey then q
          else q.updateIndex fun x => (x.eraseMethod oldKey method).insertMethod newKey method
  | _, _ => q

-- Renames a class. The new name must be free, and no two methods may come to share a key.
def renameClass (p : Program) (id : ClassId) (new : String) : Except EditError Program :=
  match p.className? id with
  | none => .error (.unknownClass id)
  | some old =>
      if old = new then .ok p
      else if (p.findClass? new).isSome then .error (.nameTaken new)
      else
        let r : Renaming := ⟨old, new⟩
        match firstRepeated? (p.methodKeysAfter r id) [] with
        | some key => .error (.nameTaken key)
        | none =>
            let unlinked := p.unlinkClass id
            let indexed := unlinked.updateIndex fun x => (x.eraseClass old id).insertClass new id
            let named := indexed.updateClass id fun c => { c with name := new }
            let classes := named.classIds.foldl (fun q c => q.updateClass c r.classHeader) named
            let fields := classes.fieldIds.foldl (carryField r id) classes
            let methods := fields.methodIds.foldl (carryMethod r id) fields
            .ok (methods.relinkClass id)

end Program

end JvmEdit
