import JvmEdit.Pass.Context
import JvmEdit.Proofs.Program.Edits
set_option autoImplicit false

namespace JvmEdit

-- Work on a state that an error does not undo.
abbrev InPlace (σ : Type) := ExceptT EditError (StateM σ)

namespace InPlace

variable {σ α β : Type}

def perform (x : InPlace σ α) (s : σ) : Except EditError α × σ := x.run.run s

-- How work ends that changes the state only if it succeeds.
def settle (s : σ) : Except EditError (α × σ) → Except EditError α × σ
  | .ok (a, t) => (.ok a, t)
  | .error e => (.error e, s)

theorem perform_bind (x : InPlace σ α) (f : α → InPlace σ β) (s : σ) : (x >>= f).perform s =
    match x.perform s with
    | (.ok a, t) => (f a).perform t
    | (.error e, t) => (.error e, t) := by
  simp only [perform, ExceptT.run_bind, StateT.run_bind]
  rcases x.run.run s with ⟨r | a, t⟩ <;> rfl

end InPlace

-- Work on a program, with the warnings that arise on the way.
abbrev Editing := InPlace (Logged Program)

namespace Editing

def current : Editing Program := do return (← get).value

def change (f : Program → Program) : Editing Unit := modify fun s => { s with value := f s.value }

def changeLogged (f : Program → Logged Program) : Editing Unit :=
  modify fun s => ⟨(f s.value).value, s.warnings ++ (f s.value).warnings⟩

def attempt (f : Program → Except EditError Program) : Editing Unit := do
  match f (← current) with
  | .ok q => change fun _ => q
  | .error e => throw e

def renameClass (id : ClassId) (new : String) : Editing Unit := do
  match (← current).className? id with
  | none => throw (.unknownClass id)
  | some old =>
      if old = new then pure ()
      else if ((← current).findClass? new).isSome then throw (.nameTaken new)
      else
        match Program.firstRepeated? ((← current).methodKeysAfter ⟨old, new⟩ id) [] with
        | some key => throw (.nameTaken key)
        | none =>
            change (·.unlinkClass id)
            change (·.updateIndex (·.eraseClass old id))
            change (·.updateIndex (·.insertClass new id))
            change (·.updateClass id fun c => { c with name := new })
            change fun p => p.classIds.foldl (fun q c => q.updateClass c (Renaming.classHeader ⟨old, new⟩)) p
            change fun p => p.fieldIds.foldl (Program.carryField ⟨old, new⟩ id) p
            change fun p => p.methodIds.foldl (Program.carryMethod ⟨old, new⟩ id) p
            change (·.relinkClass id)

def renameField (id : FieldId) (new : String) : Editing Unit := do
  match (← current).field? id with
  | none => throw (.unknownField id)
  | some f =>
      if f.name = new then pure ()
      else
        match (← current).className? f.owner with
        | none => throw (.unknownClass f.owner)
        | some owner =>
            if ((← current).findFieldKey? (Key.field owner new)).isSome then
              throw (.nameTaken (Key.field owner new))
            else
              match (← current).stolenKey? id f.references new with
              | some key => throw (.nameTaken key)
              | none =>
                  if (← current).rebindsInherited id owner new then
                    throw (.nameTaken (Key.field owner new))
                  else
                    change (·.updateIndex (·.eraseField (Key.field owner f.name) id))
                    change (·.updateIndex (·.insertField (Key.field owner new) id))
                    change (·.updateField id fun f => { f with name := new })
                    change (·.updateAll f.references (Program.mapFieldUse fun use => { use with name := new }))

def renameMethod (id : MethodId) (new : String) : Editing Unit := do
  match (← current).method? id with
  | none => throw (.unknownMethod id)
  | some m =>
      if m.isConstructor then throw (.constructor id)
      else if m.name = new then pure ()
      else
        match (← current).className? m.owner with
        | none => throw (.unknownClass m.owner)
        | some owner =>
            if ((← current).findMethodKey? (Key.method owner new m.descriptor)).isSome then
              throw (.nameTaken (Key.method owner new m.descriptor))
            else
              change (·.updateIndex (·.eraseMethod (Key.method owner m.name m.descriptor) id))
              change (·.updateIndex (·.insertMethod (Key.method owner new m.descriptor) id))
              change (·.updateMethod id fun m => { m with name := new })
              change (·.updateAll m.invocations (Program.mapCall fun call => { call with name := new }))

-- Takes instructions out one by one; answers the methods that they stood in.
def removeInstructions (refs : List InsnRef) : Editing (OrderedSet MethodId) := do
  let (removed, touched) := (← current).removeInstructions refs
  change fun _ => removed
  return touched

def deleteField [Libraries] (id : FieldId) : Editing Unit := do
  match (← current).field? id with
  | none => throw (.unknownField id)
  | some f =>
      let touched ← removeInstructions f.references.toList
      change (·.updateClass f.owner fun c => { c with fields := c.fields.filter (· ≠ id) })
      match (← current).className? f.owner with
      | some owner => change (·.updateIndex (·.eraseField (Key.field owner f.name) id))
      | none => pure ()
      change fun p => { p with fields := p.fields.erase id }
      changeLogged (·.refresh touched.toList)

def deleteMethod [Libraries] (id : MethodId) : Editing Unit := do
  match (← current).method? id with
  | none => throw (.unknownMethod id)
  | some m =>
      change (·.forgetReferences id m.owner)
      let touched ← removeInstructions (m.invocations.toList.filter (·.method ≠ id))
      change (·.updateClass m.owner fun c => { c with methods := c.methods.filter (· ≠ id) })
      match (← current).className? m.owner with
      | some owner => change (·.updateIndex (·.eraseMethod (Key.method owner m.name m.descriptor) id))
      | none => pure ()
      change fun p => { p with methods := p.methods.erase id }
      changeLogged (·.refresh (touched.erase id).toList)

-- What has to hold before a field is taken out of its class; answers the field and the name of the
-- class it goes to.
def admitField (id : FieldId) (destination : ClassId) : Editing (Field × String) := do
  match (← current).field? id with
  | none => throw (.unknownField id)
  | some f =>
      if f.owner = destination then throw .sameOwner
      else
        match (← current).className? destination with
        | none => throw (.unknownClass destination)
        | some name =>
            if ((← current).findFieldKey? (Key.field name f.name)).isSome ||
                (← current).rebindsInherited id name f.name then
              throw (.nameTaken (Key.field name f.name))
            else return (f, name)

-- Takes a field out of the index, of its class and of the program. The last step finds the field
-- gone only if one before it has removed it.
def withdrawField (id : FieldId) (f : Field) : Editing Field := do
  match (← current).className? f.owner with
  | some owner => change (·.updateIndex (·.eraseField (Key.field owner f.name) id))
  | none => pure ()
  change (·.updateClass f.owner fun c => { c with fields := c.fields.filter (· ≠ id) })
  match (← current).field? id with
  | none => throw (.unknownField id)
  | some field =>
      change fun p => { p with fields := p.fields.erase id }
      return field

-- Once the field is out of its class, an error comes too late.
def transferField (id : FieldId) (destination : ClassId) (f : Field) (name : String) :
    Editing Unit := do
  let field ← withdrawField id f
  attempt (·.attachField destination id { field with references := .empty })
  change fun p => field.references.toList.foldl
    (Program.retarget · (Program.mapFieldUse fun use => { use with owner := name })) p

def moveField (id : FieldId) (destination : ClassId) : Editing Unit := do
  let (f, name) ← admitField id destination
  transferField id destination f name

def admitMethod (id : MethodId) (destination : ClassId) : Editing (Method × Class) := do
  match (← current).method? id with
  | none => throw (.unknownMethod id)
  | some m =>
      if m.isConstructor then throw (.constructor id)
      else if m.owner = destination then throw .sameOwner
      else
        match (← current).class? destination with
        | none => throw (.unknownClass destination)
        | some target =>
            if ((← current).findMethodKey? (Key.method target.name m.name m.descriptor)).isSome then
              throw (.nameTaken (Key.method target.name m.name m.descriptor))
            else return (m, target)

def withdrawMethod (id : MethodId) (m : Method) : Editing Method := do
  match (← current).className? m.owner with
  | some owner => change (·.updateIndex (·.eraseMethod (Key.method owner m.name m.descriptor) id))
  | none => pure ()
  change (·.updateClass m.owner fun c => { c with methods := c.methods.filter (· ≠ id) })
  match (← current).method? id with
  | none => throw (.unknownMethod id)
  | some method =>
      change fun p => { p with methods := p.methods.erase id }
      return method

def transferMethod (id : MethodId) (destination : ClassId) (m : Method) (target : Class) :
    Editing Unit := do
  change (·.forgetReferences id m.owner)
  let method ← withdrawMethod id m
  attempt (·.attachMethod destination id { method with invocations := .empty })
  change fun p => method.invocations.toList.foldl (Program.retarget · (Program.mapCall fun call =>
    { call with owner := target.name, isInterface := target.access.isInterface })) p
  change fun p => (p.resolveMethod id).1

def moveMethod (id : MethodId) (destination : ClassId) : Editing Unit := do
  let (m, target) ← admitMethod id destination
  transferMethod id destination m target

def deleteInstructions [Libraries] (id : MethodId) (insns : List InsnId) : Editing Nat := do
  match (← current).method? id with
  | none => throw (.unknownMethod id)
  | some m =>
      let (code, removed) := m.code.cut insns
      change (·.updateMethod id fun m => { m with code })
      change (·.forgetAll id m.owner removed.reverse)
      changeLogged (·.refresh [id])
      return removed.length

def editBody [Libraries] (id : MethodId) (f : Method → Method) : Editing Unit := do
  match (← current).method? id with
  | none => throw (.unknownMethod id)
  | some _ =>
      change (·.updateMethod id f)
      changeLogged (·.refresh [id])

end Editing

-- Every edit of a program.
inductive Edit
  | renameClass (id : ClassId) (new : String)
  | member (edit : MemberEdit)
  | body (id : MethodId) (f : Method → Method)

def MemberEdit.inPlace [Libraries] : MemberEdit → Editing Unit
  | .renameField id new => Editing.renameField id new
  | .renameMethod id new => Editing.renameMethod id new
  | .moveField id destination => Editing.moveField id destination
  | .moveMethod id destination => Editing.moveMethod id destination
  | .deleteField id => Editing.deleteField id
  | .deleteMethod id => Editing.deleteMethod id
  | .deleteInstructions id insns => do let _ ← Editing.deleteInstructions id insns

def Edit.inPlace [Libraries] : Edit → Editing Unit
  | .renameClass id new => Editing.renameClass id new
  | .member edit => edit.inPlace
  | .body id f => Editing.editBody id f

namespace Program

def memberOutcome [Libraries] (p : Program) : MemberEdit → Except EditError (Logged Program)
  | .renameField id new => (p.renameField id new).map pure
  | .renameMethod id new => (p.renameMethod id new).map pure
  | .moveField id destination => (p.moveField id destination).map pure
  | .moveMethod id destination => (p.moveMethod id destination).map pure
  | .deleteField id => p.deleteField id
  | .deleteMethod id => p.deleteMethod id
  | .deleteInstructions id insns =>
      (p.deleteInstructions id insns).map fun q => ⟨q.value.1, q.warnings⟩

def outcome [Libraries] (p : Program) : Edit → Except EditError (Logged Program)
  | .renameClass id new => (p.renameClass id new).map pure
  | .member edit => p.memberOutcome edit
  | .body id f => p.editBody id f

end Program

-- The edits that a pass makes a note of.
inductive PassEdit
  | renameClass (id : ClassId) (new : String)
  | renameField (id : FieldId) (new : String)
  | renameMethod (id : MethodId) (new : String)
  | deleteField (id : FieldId)
  | deleteMethod (id : MethodId)
  | moveField (id : FieldId) (destination : ClassId)
  | moveMethod (id : MethodId) (destination : ClassId)
  deriving DecidableEq, Repr

def PassEdit.edit : PassEdit → Edit
  | .renameClass id new => .renameClass id new
  | .renameField id new => .member (.renameField id new)
  | .renameMethod id new => .member (.renameMethod id new)
  | .deleteField id => .member (.deleteField id)
  | .deleteMethod id => .member (.deleteMethod id)
  | .moveField id destination => .member (.moveField id destination)
  | .moveMethod id destination => .member (.moveMethod id destination)

-- What is written down about an edit that has gone through, and how the entity is marked.
structure EditNote where
  target : ChangeTarget
  message : String
  mark : PassContext → PassContext := id

namespace PassContext

-- The note comes before the edit, so that the entity goes by its old name in it.
def note (c : PassContext) : PassEdit → Except EditError EditNote
  | .renameClass id new =>
      match c.program.className? id with
      | none => .error (.unknownClass id)
      | some old => .ok
          { target := .class old, message := s!"renamed to {new}",
            mark := (·.annotate (·.annotateClass id (renamedFrom old))) }
  | .renameField id new =>
      match c.fieldTarget? id with
      | some (.field owner name) => .ok
          { target := .field owner name, message := s!"renamed to {new}",
            mark := (·.annotate (·.annotateField id (renamedFrom name))) }
      | _ => .error (.unknownField id)
  | .renameMethod id new =>
      match c.methodTarget? id with
      | some (.method owner name descriptor) => .ok
          { target := .method owner name descriptor, message := s!"renamed to {new}",
            mark := (·.annotate (·.annotateMethod id (renamedFrom name))) }
      | _ => .error (.unknownMethod id)
  | .deleteField id =>
      match c.fieldTarget? id with
      | none => .error (.unknownField id)
      | some target => .ok { target, message := "deleted" }
  | .deleteMethod id =>
      match c.methodTarget? id with
      | none => .error (.unknownMethod id)
      | some target => .ok { target, message := "deleted" }
  | .moveField id destination =>
      match c.fieldTarget? id, c.program.className? destination with
      | some (.field owner name), some newOwner => .ok
          { target := .field owner name, message := s!"moved to {newOwner}",
            mark := (·.annotate (·.annotateField id (movedBetween owner newOwner))) }
      | some _, none => .error (.unknownClass destination)
      | _, _ => .error (.unknownField id)
  | .moveMethod id destination =>
      match c.methodTarget? id, c.program.className? destination with
      | some (.method owner name descriptor), some newOwner => .ok
          { target := .method owner name descriptor, message := s!"moved to {newOwner}",
            mark := (·.annotate (·.annotateMethod id (movedBetween owner newOwner))) }
      | some _, none => .error (.unknownClass destination)
      | _, _ => .error (.unknownMethod id)

def outcome [Libraries] (c : PassContext) : PassEdit → Except EditError PassContext
  | .renameClass id new => c.renameClass id new
  | .renameField id new => c.renameField id new
  | .renameMethod id new => c.renameMethod id new
  | .deleteField id => c.deleteField id
  | .deleteMethod id => c.deleteMethod id
  | .moveField id destination => c.moveField id destination
  | .moveMethod id destination => c.moveMethod id destination

end PassContext

-- Work of a pass, on its program and on the record of its changes.
abbrev Passing := InPlace PassContext

namespace Passing

-- Whatever has become of the program stays with the pass, also after an error.
def within (x : Editing Unit) : Passing Unit := do
  let c ← get
  let (result, s) := x.perform { value := c.program }
  set (c.accept s)
  match result with
  | .ok _ => pure ()
  | .error refusal => throw refusal

end Passing

def PassEdit.inPlace [Libraries] (e : PassEdit) : Passing Unit := do
  match (← get).note e with
  | .error refusal => throw refusal
  | .ok note =>
      Passing.within e.edit.inPlace
      modify note.mark
      modify (·.record note.target note.message)

end JvmEdit
