import JvmEdit.Program.Flow
import JvmEdit.Program.Resolve
set_option autoImplicit false

namespace JvmEdit

namespace Program

-- A recorded field instruction at `ref`.
def fieldUseAt? (p : Program) (ref : InsnRef) : Option FieldUse :=
  match p.instruction? ref with
  | some ⟨_, _, .field use⟩ => some use
  | _ => none

-- Whether an instruction that names `owner.name` is bound to a field other than `id`, which it
-- reaches through the superclass. Indexing `id` under that key would take the instruction over.
def rebindsInherited (p : Program) (id : FieldId) (owner name : String) : Bool :=
  p.fields.toList.any fun (other, f) =>
    other ≠ id && f.name = name && f.references.toList.any fun ref =>
      (p.fieldUseAt? ref).any fun use => use.owner = owner && use.name = name

-- The key of another field that a recorded instruction would come to name once its field has a
-- new name.
def stolenKey? (p : Program) (id : FieldId) (refs : OrderedSet InsnRef) (new : String) :
    Option String :=
  refs.toList.findSome? fun ref =>
    match p.fieldUseAt? ref with
    | none => none
    | some use =>
        let key := Key.field use.owner new
        if (p.findFieldKey? key).any (· ≠ id) then some key else none

def mapFieldUse (f : FieldUse → FieldUse) : Operand → Operand
  | .field use => .field (f use)
  | operand => operand

def mapCall (f : Call → Call) : Operand → Operand
  | .call call => .call (f call)
  | operand => operand

def updateAll (p : Program) (refs : OrderedSet InsnRef) (f : Operand → Operand) : Program :=
  refs.toList.foldl (fun q ref => q.updateOperand ref f) p

def renameField (p : Program) (id : FieldId) (new : String) : Except EditError Program :=
  match p.field? id with
  | none => .error (.unknownField id)
  | some f =>
      if f.name = new then .ok p
      else
        match p.className? f.owner with
        | none => .error (.unknownClass f.owner)
        | some owner =>
            let newKey := Key.field owner new
            if (p.findFieldKey? newKey).isSome then .error (.nameTaken newKey)
            else
              match p.stolenKey? id f.references new with
              | some key => .error (.nameTaken key)
              | none =>
                  if p.rebindsInherited id owner new then .error (.nameTaken newKey)
                  else
                    let indexed := p.updateIndex fun x =>
                      (x.eraseField (Key.field owner f.name) id).insertField newKey id
                    let named := indexed.updateField id fun f => { f with name := new }
                    .ok (named.updateAll f.references
                      (mapFieldUse fun use => { use with name := new }))

def renameMethod (p : Program) (id : MethodId) (new : String) : Except EditError Program :=
  match p.method? id with
  | none => .error (.unknownMethod id)
  | some m =>
      if m.isConstructor then .error (.constructor id)
      else if m.name = new then .ok p
      else
        match p.className? m.owner with
        | none => .error (.unknownClass m.owner)
        | some owner =>
            let newKey := Key.method owner new m.descriptor
            if (p.findMethodKey? newKey).isSome then .error (.nameTaken newKey)
            else
              let indexed := p.updateIndex fun x =>
                (x.eraseMethod (Key.method owner m.name m.descriptor) id).insertMethod newKey id
              let named := indexed.updateMethod id fun m => { m with name := new }
              .ok (named.updateAll m.invocations (mapCall fun call => { call with name := new }))

def removeInstruction (p : Program) (ref : InsnRef) : Program × Bool :=
  match (p.method? ref.method).bind fun m => m.code.get? ref.insn with
  | some _ => (p.updateMethod ref.method fun m => { m with code := m.code.remove ref.insn }, true)
  | none => (p, false)

def removeInstructions (p : Program) (refs : List InsnRef) : Program × OrderedSet MethodId :=
  refs.foldl (fun (q, touched) ref =>
    match q.removeInstruction ref with
    | (q', true) => (q', touched.insert ref.method)
    | (q', false) => (q', touched)) (p, .empty)

def deleteField [Libraries] (p : Program) (id : FieldId) : Except EditError (Logged Program) :=
  match p.field? id with
  | none => .error (.unknownField id)
  | some f =>
      let (removed, touched) := p.removeInstructions f.references.toList
      let unlisted := removed.updateClass f.owner fun c =>
        { c with fields := c.fields.filter (· ≠ id) }
      let unindexed :=
        match unlisted.className? f.owner with
        | some owner => unlisted.updateIndex (·.eraseField (Key.field owner f.name) id)
        | none => unlisted
      .ok ({ unindexed with fields := unindexed.fields.erase id }.refresh touched.toList)

-- Takes a method's own instructions out of the records of what they name.
def forgetReferences (p : Program) (id : MethodId) (context : ClassId) : Program :=
  (p.referencesOf id).foldl (fun q i => q.forget context ⟨id, i.id⟩ i.operand) p

def deleteMethod [Libraries] (p : Program) (id : MethodId) : Except EditError (Logged Program) :=
  match p.method? id with
  | none => .error (.unknownMethod id)
  | some m =>
      let forgotten := p.forgetReferences id m.owner
      let callers := m.invocations.toList.filter (·.method ≠ id)
      let (removed, touched) := forgotten.removeInstructions callers
      let unlisted := removed.updateClass m.owner fun c =>
        { c with methods := c.methods.filter (· ≠ id) }
      let unindexed :=
        match unlisted.className? m.owner with
        | some owner => unlisted.updateIndex (·.eraseMethod (Key.method owner m.name m.descriptor) id)
        | none => unlisted
      .ok ({ unindexed with methods := unindexed.methods.erase id }.refresh (touched.erase id).toList)

def moveField (p : Program) (id : FieldId) (destination : ClassId) : Except EditError Program :=
  match p.field? id with
  | none => .error (.unknownField id)
  | some f =>
      if f.owner = destination then .error .sameOwner
      else
        match p.className? destination with
        | none => .error (.unknownClass destination)
        | some name =>
            let newKey := Key.field name f.name
            if (p.findFieldKey? newKey).isSome || p.rebindsInherited id name f.name then
              .error (.nameTaken newKey)
            else
              let unindexed :=
                match p.className? f.owner with
                | some owner => p.updateIndex (·.eraseField (Key.field owner f.name) id)
                | none => p
              let unlisted := unindexed.updateClass f.owner fun c =>
                { c with fields := c.fields.filter (· ≠ id) }
              let taken := { unlisted with fields := unlisted.fields.erase id }
              (taken.attachField destination id { f with references := .empty }).map fun attached =>
                f.references.toList.foldl (fun q ref =>
                  ((q.updateOperand ref
                    (mapFieldUse fun use => { use with owner := name })).resolveInstruction ref).1)
                  attached

-- Moves a method to another class; the recorded calls follow it, and its own instructions are
-- bound anew from there.
def moveMethod (p : Program) (id : MethodId) (destination : ClassId) : Except EditError Program :=
  match p.method? id with
  | none => .error (.unknownMethod id)
  | some m =>
      if m.isConstructor then .error (.constructor id)
      else if m.owner = destination then .error .sameOwner
      else
        match p.class? destination with
        | none => .error (.unknownClass destination)
        | some target =>
            let newKey := Key.method target.name m.name m.descriptor
            if (p.findMethodKey? newKey).isSome then .error (.nameTaken newKey)
            else
              let forgotten := p.forgetReferences id m.owner
              let unindexed :=
                match forgotten.className? m.owner with
                | some owner =>
                    forgotten.updateIndex (·.eraseMethod (Key.method owner m.name m.descriptor) id)
                | none => forgotten
              let unlisted := unindexed.updateClass m.owner fun c =>
                { c with methods := c.methods.filter (· ≠ id) }
              let moved := (unlisted.method? id).getD m
              let taken := { unlisted with methods := unlisted.methods.erase id }
              (taken.attachMethod destination id { moved with invocations := .empty }).map
                fun attached =>
                  let retarget := mapCall fun call =>
                    { call with owner := target.name, isInterface := target.access.isInterface }
                  let followed := moved.invocations.toList.foldl (fun q ref =>
                    ((q.updateOperand ref retarget).resolveInstruction ref).1) attached
                  (followed.resolveMethod id).1

-- Takes instructions out of one body and out of the records of what they name. Identities that
-- are not in the body are passed over; the answer counts the others.
def deleteInstructions [Libraries] (p : Program) (id : MethodId) (ids : List InsnId) :
    Except EditError (Logged (Program × Nat)) :=
  match p.method? id with
  | none => .error (.unknownMethod id)
  | some m =>
      let (code, removed) := ids.foldl (fun (code, removed) insn =>
        match code.get? insn with
        | some i => (code.remove insn, i :: removed)
        | none => (code, removed)) (m.code, ([] : List Instruction))
      let shortened := p.updateMethod id fun m => { m with code }
      let forgotten := removed.reverse.foldl (fun q i =>
        if i.operand.isReference then q.forget m.owner ⟨id, i.id⟩ i.operand else q) shortened
      .ok ((fun q => (q, removed.length)) <$> forgotten.refresh [id])

-- Changes a body in a way that neither adds nor drops references to entities.
def editBody [Libraries] (p : Program) (id : MethodId) (f : Method → Method) :
    Except EditError (Logged Program) :=
  match p.method? id with
  | none => .error (.unknownMethod id)
  | some _ => .ok ((p.updateMethod id f).refresh [id])

end Program

end JvmEdit
