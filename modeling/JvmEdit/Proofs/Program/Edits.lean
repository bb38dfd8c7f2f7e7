import JvmEdit.Edit.Class
import JvmEdit.Edit.Member
import JvmEdit.Proofs.Data.Except
import JvmEdit.Proofs.Data.Table
set_option autoImplicit false

namespace JvmEdit

namespace Program

-- The member keeps its owner; the index follows its name.
def relabelField (p : Program) (id : FieldId) (owner old new : String) : Program :=
  (p.updateIndex fun x => (x.eraseField (Key.field owner old) id).insertField (Key.field owner new) id)
    |>.updateField id fun f => { f with name := new }

def relabelMethod (p : Program) (id : MethodId) (owner old new descriptor : String) : Program :=
  (p.updateIndex fun x =>
      (x.eraseMethod (Key.method owner old descriptor) id).insertMethod
        (Key.method owner new descriptor) id)
    |>.updateMethod id fun m => { m with name := new }

def detachField (p : Program) (id : FieldId) (owner : ClassId) (key : String) : Program :=
  let unlisted := (p.updateIndex (·.eraseField key id)).updateClass owner fun c =>
    { c with fields := c.fields.filter (· ≠ id) }
  { unlisted with fields := unlisted.fields.erase id }

def detachMethod (p : Program) (id : MethodId) (owner : ClassId) (key : String) : Program :=
  let unlisted := (p.updateIndex (·.eraseMethod key id)).updateClass owner fun c =>
    { c with methods := c.methods.filter (· ≠ id) }
  { unlisted with methods := unlisted.methods.erase id }

def placeField (p : Program) (id : FieldId) (owner : ClassId) (key : String) (field : Field) :
    Program :=
  { p with fields := p.fields.insert id { field with owner }, index := p.index.insertField key id }
    |>.updateClass owner fun c => { c with fields := c.fields ++ [id] }

def placeMethod (p : Program) (id : MethodId) (owner : ClassId) (key : String) (method : Method) :
    Program :=
  { p with methods := p.methods.insert id { method with owner }, index := p.index.insertMethod key id }
    |>.updateClass owner fun c => { c with methods := c.methods ++ [id] }

def remember (p : Program) (context : ClassId) (ref : InsnRef) (operand : Operand) : Program :=
  match p.lookup? (some context) operand with
  | some target => p.record target ref
  | none => p

-- Points a recorded instruction elsewhere and binds it anew.
def retarget (p : Program) (f : Operand → Operand) (ref : InsnRef) : Program :=
  ((p.updateOperand ref f).resolveInstruction ref).1

def refreshMethod [Libraries] (p : Program) (id : MethodId) : Program :=
  (p.updateMethod id Method.collectLocals).updateMethod id Method.withGraph

theorem update_parents_induct (p : Program) (id : ClassId) (f g : Class → Class)
    (holds : Program → Prop) (start : holds p)
    (extended : ∀ q c, holds q → holds (q.updateClass c f))
    (implemented : ∀ q c, holds q → holds (q.updateClass c g)) : holds (p.updateParents id f g) := by
  simp only [updateParents]
  split
  · exact start
  · rename_i c _
    refine List.foldlRecOn c.interfaces _ ?_ fun q kept name _ => ?_
    · split
      · exact extended p _ start
      · exact start
    · split
      · exact implemented q _ kept
      · exact kept

theorem methods_update_parents (p : Program) (id : ClassId) (f g : Class → Class) :
    (p.updateParents id f g).methods = p.methods :=
  update_parents_induct p id f g (fun q => q.methods = p.methods) rfl (fun _ _ same => same)
    fun _ _ same => same

theorem remove_instructions_program (p : Program) (refs : List InsnRef) :
    (p.removeInstructions refs).1 = refs.foldl (fun q ref => (q.removeInstruction ref).1) p := by
  simp only [removeInstructions]
  refine (List.foldl_hom Prod.fst ?_).symm
  rintro ⟨q, touched⟩ ref
  unfold removeInstruction
  dsimp only
  split <;> rfl

theorem resolve_method_dead (p : Program) (id : MethodId) (dead : p.method? id = none) :
    p.resolveMethod id = (p, 0) := by rw [resolveMethod, dead]

theorem resolve_method_program (p : Program) (id : MethodId) (m : Method)
    (found : p.method? id = some m) :
    (p.resolveMethod id).1 =
      (p.referencesOf id).foldl (fun q i => q.remember m.owner ⟨id, i.id⟩ i.operand) p := by
  simp only [resolveMethod]
  rw [found]
  refine (List.foldl_hom Prod.fst ?_).symm
  rintro ⟨q, count⟩ i
  unfold remember
  dsimp only
  cases q.lookup? (some m.owner) i.operand <;> rfl

theorem resolve_all_program (p : Program) :
    p.resolveAll.1 = p.methodIds.foldl (fun q id => (q.resolveMethod id).1) p := by
  simp only [resolveAll]
  exact (List.foldl_hom Prod.fst fun _ _ => rfl).symm

theorem rebuild_graph_program [Libraries] (p : Program) (id : MethodId) :
    (p.rebuildGraph id).value = p.updateMethod id Method.withGraph := by
  unfold rebuildGraph
  dsimp only
  split <;> rfl

theorem refresh_program [Libraries] (p : Program) (ids : List MethodId) :
    (p.refresh ids).value = ids.foldl refreshMethod p := by
  simp only [refresh]
  induction ids generalizing p with
  | nil => rfl
  | cons id ids ih =>
      rw [List.foldlM_cons, List.foldl_cons]
      have head := rebuild_graph_program (p.updateMethod id Method.collectLocals) id
      exact (ih _).trans (congrArg (List.foldl refreshMethod · ids) head)

theorem method?_refresh [Libraries] (p : Program) (id other : MethodId) :
    (p.refresh [id]).value.method? other = if id = other then
      (p.method? other).map fun m => m.collectLocals.withGraph else p.method? other := by
  rw [refresh_program, List.foldl_cons, List.foldl_nil, refreshMethod, method?_update_method,
    method?_update_method]
  split
  · rw [Option.map_map]
    rfl
  · rfl

theorem edit_body_live [Libraries] (p : Program) (id : MethodId) (f : Method → Method) (m : Method)
    (live : p.method? id = some m) : ∃ logged, p.editBody id f = .ok logged ∧
      logged.value.method? id = some (f m).collectLocals.withGraph := by
  have done : p.editBody id f = .ok ((p.updateMethod id f).refresh [id]) := by
    rw [editBody, live]
  refine ⟨_, done, ?_⟩
  rw [method?_refresh, if_pos rfl, method?_update_method, if_pos rfl, live]
  rfl

theorem edit_body_ok [Libraries] (p : Program) (q : Logged Program) (id : MethodId) (f : Method → Method)
    (done : p.editBody id f = .ok q) :
    ∃ m, p.method? id = some m ∧ q = (p.updateMethod id f).refresh [id] := by
  simp only [editBody] at done
  cases live : p.method? id with
  | none => simp [live] at done
  | some m =>
      simp only [live] at done
      cases done
      exact ⟨m, rfl, rfl⟩

section Attach

variable (p q : Program) (owner : ClassId)

theorem attach_field_ok (id : FieldId) (field : Field) (done : p.attachField owner id field = .ok q) :
    ∃ name, p.className? owner = some name ∧
      (∀ other, p.findFieldKey? (Key.field name field.name) = some other → other = id) ∧
      q = p.placeField id owner (Key.field name field.name) field := by
  simp only [attachField] at done
  cases live : p.className? owner with
  | none => simp [live] at done
  | some name =>
      simp only [live] at done
      split at done
      · cases done
      · rename_i free
        cases done
        refine ⟨name, rfl, ?_, rfl⟩
        intro other found
        simpa [found] using free

theorem attach_method_ok (id : MethodId) (method : Method)
    (done : p.attachMethod owner id method = .ok q) :
    ∃ name, p.className? owner = some name ∧
      (∀ other, p.findMethodKey? (Key.method name method.name method.descriptor) = some other →
        other = id) ∧
      q = p.placeMethod id owner (Key.method name method.name method.descriptor) method := by
  simp only [attachMethod] at done
  cases live : p.className? owner with
  | none => simp [live] at done
  | some name =>
      simp only [live] at done
      split at done
      · cases done
      · rename_i free
        cases done
        refine ⟨name, rfl, ?_, rfl⟩
        intro other found
        simpa [found] using free

theorem attach_field_free (id : FieldId) (field : Field) (name : String)
    (live : p.className? owner = some name)
    (free : p.findFieldKey? (Key.field name field.name) = none) :
    p.attachField owner id field = .ok (p.placeField id owner (Key.field name field.name) field) := by
  simp only [attachField]
  rw [live]
  simp only [free, Option.any_none, Bool.false_eq_true, if_false]
  rfl

theorem attach_method_free (id : MethodId) (method : Method) (name : String)
    (live : p.className? owner = some name)
    (free : p.findMethodKey? (Key.method name method.name method.descriptor) = none) :
    p.attachMethod owner id method =
      .ok (p.placeMethod id owner (Key.method name method.name method.descriptor) method) := by
  simp only [attachMethod]
  rw [live]
  simp only [free, Option.any_none, Bool.false_eq_true, if_false]
  rfl

end Attach

theorem rename_field_ok (p q : Program) (id : FieldId) (new : String)
    (done : p.renameField id new = .ok q) :
    ∃ f, p.field? id = some f ∧ (f.name = new ∧ q = p ∨
      ∃ owner, f.name ≠ new ∧ p.className? f.owner = some owner ∧
        p.findFieldKey? (Key.field owner new) = none ∧ p.stolenKey? id f.references new = none ∧
        p.rebindsInherited id owner new = false ∧
        q = (p.relabelField id owner f.name new).updateAll f.references
          (mapFieldUse fun use => { use with name := new })) := by
  simp only [renameField] at done
  cases found : p.field? id with
  | none => simp [found] at done
  | some f =>
      simp only [found] at done
      refine ⟨f, rfl, ?_⟩
      by_cases same : f.name = new
      · rw [if_pos same] at done
        cases done
        exact Or.inl ⟨same, rfl⟩
      · rw [if_neg same] at done
        cases live : p.className? f.owner with
        | none => simp [live] at done
        | some owner =>
            simp only [live] at done
            split at done
            · cases done
            · rename_i free
              split at done
              · cases done
              · rename_i unstolen
                split at done
                · cases done
                · rename_i bound
                  cases done
                  refine Or.inr ⟨owner, same, rfl, ?_, unstolen, ?_, rfl⟩
                  · simpa using free
                  · simpa using bound

theorem rename_method_ok (p q : Program) (id : MethodId) (new : String)
    (done : p.renameMethod id new = .ok q) :
    ∃ m, p.method? id = some m ∧ m.isConstructor = false ∧ (m.name = new ∧ q = p ∨
      ∃ owner, m.name ≠ new ∧ p.className? m.owner = some owner ∧
        p.findMethodKey? (Key.method owner new m.descriptor) = none ∧
        q = (p.relabelMethod id owner m.name new m.descriptor).updateAll m.invocations
          (mapCall fun call => { call with name := new })) := by
  simp only [renameMethod] at done
  cases found : p.method? id with
  | none => simp [found] at done
  | some m =>
      simp only [found] at done
      refine ⟨m, rfl, ?_⟩
      split at done
      · cases done
      · rename_i ordinary
        refine ⟨by simpa using ordinary, ?_⟩
        split at done
        · rename_i same
          cases done
          exact Or.inl ⟨same, rfl⟩
        · rename_i differ
          cases live : p.className? m.owner with
          | none => simp [live] at done
          | some owner =>
              simp only [live] at done
              split at done
              · cases done
              · rename_i free
                cases done
                exact Or.inr ⟨owner, differ, rfl, by simpa using free, rfl⟩

end Program

structure ClassNaming where
  name : String
  fields : List FieldId
  methods : List MethodId
  deriving DecidableEq, Repr

structure FieldNaming where
  owner : ClassId
  name : String
  deriving DecidableEq, Repr

structure MethodNaming where
  owner : ClassId
  name : String
  descriptor : String
  deriving DecidableEq, Repr

def Class.naming (c : Class) : ClassNaming := ⟨c.name, c.fields, c.methods⟩

def Field.naming (f : Field) : FieldNaming := ⟨f.owner, f.name⟩

def Method.naming (m : Method) : MethodNaming := ⟨m.owner, m.name, m.descriptor⟩

namespace Program

def classNaming? (p : Program) (id : ClassId) : Option ClassNaming := (p.class? id).map Class.naming

def fieldNaming? (p : Program) (id : FieldId) : Option FieldNaming := (p.field? id).map Field.naming

def methodNaming? (p : Program) (id : MethodId) : Option MethodNaming :=
  (p.method? id).map Method.naming

theorem class_name_eq (p : Program) (id : ClassId) :
    p.className? id = (p.classNaming? id).map (·.name) := by
  simp [className?, classNaming?, Class.naming, Function.comp_def]

theorem field_key_eq (p : Program) (id : FieldId) :
    p.fieldKey? id = (p.fieldNaming? id).bind fun f =>
      (p.className? f.owner).map fun owner => Key.field owner f.name := by
  simp only [fieldKey?, fieldNaming?, Option.bind_map]
  rfl

theorem method_key_eq (p : Program) (id : MethodId) :
    p.methodKey? id = (p.methodNaming? id).bind fun m =>
      (p.className? m.owner).map fun owner => Key.method owner m.name m.descriptor := by
  simp only [methodKey?, methodNaming?, Option.bind_map]
  rfl

-- The programs differ in nothing that the index depends on.
structure SameNames (p q : Program) : Prop where
  index : q.index = p.index
  nextId : q.nextId = p.nextId
  classIds : q.classIds = p.classIds
  fieldIds : q.fieldIds = p.fieldIds
  methodIds : q.methodIds = p.methodIds
  classes : ∀ id, q.classNaming? id = p.classNaming? id
  fields : ∀ id, q.fieldNaming? id = p.fieldNaming? id
  methods : ∀ id, q.methodNaming? id = p.methodNaming? id

namespace SameNames

theorem refl (p : Program) : SameNames p p :=
  ⟨rfl, rfl, rfl, rfl, rfl, fun _ => rfl, fun _ => rfl, fun _ => rfl⟩

theorem trans {p q r : Program} (first : SameNames p q) (second : SameNames q r) : SameNames p r :=
  ⟨second.index.trans first.index, second.nextId.trans first.nextId,
    second.classIds.trans first.classIds, second.fieldIds.trans first.fieldIds,
    second.methodIds.trans first.methodIds, fun id => (second.classes id).trans (first.classes id),
    fun id => (second.fields id).trans (first.fields id),
    fun id => (second.methods id).trans (first.methods id)⟩

theorem foldl {α : Type} (f : Program → α → Program) (keeps : ∀ p x, SameNames p (f p x))
    (xs : List α) (p : Program) : SameNames p (xs.foldl f p) := by
  induction xs generalizing p with
  | nil => exact refl p
  | cons x xs ih => exact (keeps p x).trans (ih (f p x))

theorem class_name {p q : Program} (same : SameNames p q) (id : ClassId) :
    q.className? id = p.className? id := by
  rw [class_name_eq, class_name_eq, same.classes]

theorem field_key {p q : Program} (same : SameNames p q) (id : FieldId) :
    q.fieldKey? id = p.fieldKey? id := by
  simp only [field_key_eq, same.fields, same.class_name]

theorem method_key {p q : Program} (same : SameNames p q) (id : MethodId) :
    q.methodKey? id = p.methodKey? id := by
  simp only [method_key_eq, same.methods, same.class_name]

end SameNames

theorem same_names_update_class (p : Program) (id : ClassId) (f : Class → Class)
    (keeps : ∀ c, (f c).naming = c.naming) : SameNames p (p.updateClass id f) := by
  refine ⟨rfl, rfl, Table.keys_modify _ _ _, rfl, rfl, ?_, fun _ => rfl, fun _ => rfl⟩
  intro other
  rw [classNaming?, class?_update_class, classNaming?]
  by_cases same : id = other
  · simp [same, Function.comp_def, keeps]
  · simp [same]

theorem same_names_update_field (p : Program) (id : FieldId) (f : Field → Field)
    (keeps : ∀ field, (f field).naming = field.naming) : SameNames p (p.updateField id f) := by
  refine ⟨rfl, rfl, rfl, Table.keys_modify _ _ _, rfl, fun _ => rfl, ?_, fun _ => rfl⟩
  intro other
  rw [fieldNaming?, field?_update_field, fieldNaming?]
  by_cases same : id = other
  · simp [same, Function.comp_def, keeps]
  · simp [same]

theorem same_names_update_method (p : Program) (id : MethodId) (f : Method → Method)
    (keeps : ∀ m, (f m).naming = m.naming) : SameNames p (p.updateMethod id f) := by
  refine ⟨rfl, rfl, rfl, rfl, Table.keys_modify _ _ _, fun _ => rfl, fun _ => rfl, ?_⟩
  intro other
  rw [methodNaming?, method?_update_method, methodNaming?]
  by_cases same : id = other
  · simp [same, Function.comp_def, keeps]
  · simp [same]

theorem same_names_record (p : Program) (target : Target) (ref : InsnRef) :
    SameNames p (p.record target ref) := by
  cases target with
  | field id => exact same_names_update_field p id _ fun _ => rfl
  | method id => exact same_names_update_method p id _ fun _ => rfl
  | «class» id => exact same_names_update_class p id _ fun _ => rfl

theorem same_names_unrecord (p : Program) (target : Target) (ref : InsnRef) :
    SameNames p (p.unrecord target ref) := by
  cases target with
  | field id => exact same_names_update_field p id _ fun _ => rfl
  | method id => exact same_names_update_method p id _ fun _ => rfl
  | «class» id => exact same_names_update_class p id _ fun _ => rfl

theorem same_names_forget (p : Program) (context : ClassId) (ref : InsnRef) (operand : Operand) :
    SameNames p (p.forget context ref operand) := by
  simp only [forget]
  split
  · exact same_names_unrecord p _ ref
  · exact .refl p

theorem same_names_forget_references (p : Program) (id : MethodId) (context : ClassId) :
    SameNames p (p.forgetReferences id context) :=
  .foldl _ (fun q (i : Instruction) => same_names_forget q context ⟨id, i.id⟩ i.operand) _ p

theorem same_names_remember (p : Program) (context : ClassId) (ref : InsnRef) (operand : Operand) :
    SameNames p (p.remember context ref operand) := by
  simp only [remember]
  split
  · exact same_names_record p _ ref
  · exact .refl p

theorem same_names_resolve_instruction (p : Program) (ref : InsnRef) :
    SameNames p (p.resolveInstruction ref).1 := by
  simp only [resolveInstruction]
  split
  · exact same_names_record p _ ref
  · exact .refl p

theorem same_names_update_operand (p : Program) (ref : InsnRef) (f : Operand → Operand) :
    SameNames p (p.updateOperand ref f) := same_names_update_method p ref.method _ fun _ => rfl

theorem same_names_update_all (p : Program) (refs : OrderedSet InsnRef) (f : Operand → Operand) :
    SameNames p (p.updateAll refs f) :=
  .foldl _ (fun q ref => same_names_update_operand q ref f) _ p

theorem same_names_remove_instruction (p : Program) (ref : InsnRef) :
    SameNames p (p.removeInstruction ref).1 := by
  simp only [removeInstruction]
  split
  · exact same_names_update_method p ref.method _ fun _ => rfl
  · exact .refl p

theorem same_names_remove_instructions (p : Program) (refs : List InsnRef) :
    SameNames p (p.removeInstructions refs).1 := by
  rw [remove_instructions_program]
  exact .foldl _ same_names_remove_instruction refs p

theorem same_names_retarget (p : Program) (f : Operand → Operand) (ref : InsnRef) :
    SameNames p (p.retarget f ref) :=
  (same_names_update_operand p ref f).trans (same_names_resolve_instruction _ ref)

theorem same_names_resolve_method (p : Program) (id : MethodId) :
    SameNames p (p.resolveMethod id).1 := by
  cases found : p.method? id with
  | none =>
      rw [resolve_method_dead p id found]
      exact .refl p
  | some m =>
      rw [resolve_method_program p id m found]
      exact .foldl _ (fun q (i : Instruction) => same_names_remember q m.owner ⟨id, i.id⟩ i.operand) _ p

theorem same_names_resolve_all (p : Program) : SameNames p p.resolveAll.1 := by
  rw [resolve_all_program]
  exact .foldl _ same_names_resolve_method _ p

theorem same_names_refresh [Libraries] (p : Program) (ids : List MethodId) :
    SameNames p (p.refresh ids).value := by
  rw [refresh_program]
  refine .foldl _ (fun q id => ?_) ids p
  exact (same_names_update_method q id Method.collectLocals fun _ => rfl).trans
    (same_names_update_method _ id Method.withGraph fun _ => rfl)

theorem same_names_update_parents (p : Program) (id : ClassId) (f g : Class → Class)
    (keepsF : ∀ c, (f c).naming = c.naming) (keepsG : ∀ c, (g c).naming = c.naming) :
    SameNames p (p.updateParents id f g) := by
  refine update_parents_induct p id f g (SameNames p) (.refl p) ?_ ?_
  · exact fun q c same => same.trans (same_names_update_class q c f keepsF)
  · exact fun q c same => same.trans (same_names_update_class q c g keepsG)

theorem same_names_link_class (p : Program) (id : ClassId) : SameNames p (p.linkClass id) :=
  same_names_update_parents p id _ _ (fun _ => rfl) fun _ => rfl

theorem same_names_unlink_class (p : Program) (id : ClassId) : SameNames p (p.unlinkClass id) :=
  same_names_update_parents p id _ _ (fun _ => rfl) fun _ => rfl

theorem same_names_relink_class (p : Program) (id : ClassId) : SameNames p (p.relinkClass id) := by
  unfold relinkClass
  refine (same_names_link_class p id).trans ?_
  dsimp only
  split
  · exact .refl _
  · exact same_names_update_class _ id _ fun _ => rfl

end Program

-- Takes an instruction out, if it is there, and puts it with those taken out before.
def Stream.cutStep (state : Stream × List Instruction) (insn : InsnId) : Stream × List Instruction :=
  match state.1.get? insn with
  | some i => (state.1.remove insn, i :: state.2)
  | none => state

-- Takes instructions out one by one; answers those that were there, the last one first.
def Stream.cut (code : Stream) (ids : List InsnId) : Stream × List Instruction :=
  ids.foldl cutStep (code, [])

inductive MemberEdit
  | renameField (id : FieldId) (new : String)
  | renameMethod (id : MethodId) (new : String)
  | moveField (id : FieldId) (destination : ClassId)
  | moveMethod (id : MethodId) (destination : ClassId)
  | deleteField (id : FieldId)
  | deleteMethod (id : MethodId)
  | deleteInstructions (id : MethodId) (insns : List InsnId)
  deriving DecidableEq, Repr

namespace Program

def edit [Libraries] (p : Program) : MemberEdit → Except EditError Program
  | .renameField id new => p.renameField id new
  | .renameMethod id new => p.renameMethod id new
  | .moveField id destination => p.moveField id destination
  | .moveMethod id destination => p.moveMethod id destination
  | .deleteField id => (p.deleteField id).map (·.value)
  | .deleteMethod id => (p.deleteMethod id).map (·.value)
  | .deleteInstructions id insns => (p.deleteInstructions id insns).map (·.value.1)

def perform [Libraries] (p : Program) (e : MemberEdit) : Program :=
  match p.edit e with
  | .ok q => q
  | .error _ => p

-- Every member belongs to a loaded class.
structure Owned (p : Program) : Prop where
  fields : ∀ id f, p.field? id = some f → ∃ owner, p.className? f.owner = some owner
  methods : ∀ id m, p.method? id = some m → ∃ owner, p.className? m.owner = some owner

theorem class_name?_update_class (p : Program) (id other : ClassId) (f : Class → Class)
    (keeps : ∀ c, (f c).name = c.name) : (p.updateClass id f).className? other = p.className? other := by
  rw [className?, class?_update_class, className?]
  by_cases same : id = other
  · simp [same, Function.comp_def, keeps]
  · simp [same]

-- Forgets instructions that have been taken out of a method of the class `context`.
def forgetAll (p : Program) (id : MethodId) (context : ClassId) (removed : List Instruction) : Program :=
  removed.foldl (fun q i =>
    if i.operand.isReference then q.forget context ⟨id, i.id⟩ i.operand else q) p

theorem same_names_forget_all (p : Program) (id : MethodId) (context : ClassId)
    (removed : List Instruction) : SameNames p (p.forgetAll id context removed) := by
  refine .foldl _ (fun q (i : Instruction) => ?_) removed p
  split
  · exact same_names_forget q context _ i.operand
  · exact .refl q

theorem delete_field_eq [Libraries] (p : Program) (id : FieldId) (f : Field) (owner : String)
    (found : p.field? id = some f) (live : p.className? f.owner = some owner) :
    p.deleteField id =
      .ok (((p.removeInstructions f.references.toList).1.detachField id f.owner
        (Key.field owner f.name)).refresh (p.removeInstructions f.references.toList).2.toList) := by
  simp only [deleteField]
  rw [found]
  dsimp only
  have stillLive : ((p.removeInstructions f.references.toList).1.updateClass f.owner fun c =>
      { c with fields := c.fields.filter (· ≠ id) }).className? f.owner = some owner := by
    refine (class_name?_update_class _ _ _ _ ?_).trans ?_
    · intro c
      rfl
    · rw [(same_names_remove_instructions p f.references.toList).class_name, live]
  rw [stillLive]
  rfl

theorem delete_method_eq [Libraries] (p : Program) (id : MethodId) (m : Method) (owner : String)
    (found : p.method? id = some m) (live : p.className? m.owner = some owner) :
    p.deleteMethod id =
      let callers := m.invocations.toList.filter (·.method ≠ id)
      let removed := (p.forgetReferences id m.owner).removeInstructions callers
      .ok ((removed.1.detachMethod id m.owner (Key.method owner m.name m.descriptor)).refresh
        (removed.2.erase id).toList) := by
  simp only [deleteMethod]
  rw [found]
  dsimp only
  have stillLive : (((p.forgetReferences id m.owner).removeInstructions
      (m.invocations.toList.filter (·.method ≠ id))).1.updateClass m.owner fun c =>
        { c with methods := c.methods.filter (· ≠ id) }).className? m.owner = some owner := by
    refine (class_name?_update_class _ _ _ _ ?_).trans ?_
    · intro c
      rfl
    · rw [(same_names_remove_instructions _ _).class_name,
        (same_names_forget_references p id m.owner).class_name, live]
  rw [stillLive]
  rfl

theorem delete_instructions_eq [Libraries] (p : Program) (id : MethodId) (insns : List InsnId)
    (m : Method) (found : p.method? id = some m) :
    p.deleteInstructions id insns =
      .ok ((fun q => (q, (m.code.cut insns).2.length)) <$>
        (((p.updateMethod id fun m' => { m' with code := (m.code.cut insns).1 }).forgetAll id m.owner
          (m.code.cut insns).2.reverse).refresh [id])) := by
  simp only [deleteInstructions]
  rw [found]
  rfl

theorem delete_field_ok [Libraries] (p : Program) (q : Logged Program) (id : FieldId) (owned : p.Owned)
    (done : p.deleteField id = .ok q) :
    ∃ f owner, p.field? id = some f ∧ p.className? f.owner = some owner ∧
      q = ((p.removeInstructions f.references.toList).1.detachField id f.owner
        (Key.field owner f.name)).refresh (p.removeInstructions f.references.toList).2.toList := by
  cases found : p.field? id with
  | none => simp [deleteField, found] at done
  | some f =>
      obtain ⟨owner, live⟩ := owned.fields id f found
      rw [delete_field_eq p id f owner found live] at done
      exact ⟨f, owner, rfl, live, (Except.ok.inj done).symm⟩

theorem delete_method_ok [Libraries] (p : Program) (q : Logged Program) (id : MethodId) (owned : p.Owned)
    (done : p.deleteMethod id = .ok q) :
    ∃ m owner, p.method? id = some m ∧ p.className? m.owner = some owner ∧
      q = (((p.forgetReferences id m.owner).removeInstructions
          (m.invocations.toList.filter (·.method ≠ id))).1.detachMethod id m.owner
          (Key.method owner m.name m.descriptor)).refresh
        (((p.forgetReferences id m.owner).removeInstructions
          (m.invocations.toList.filter (·.method ≠ id))).2.erase id).toList := by
  cases found : p.method? id with
  | none => simp [deleteMethod, found] at done
  | some m =>
      obtain ⟨owner, live⟩ := owned.methods id m found
      rw [delete_method_eq p id m owner found live] at done
      exact ⟨m, owner, rfl, live, (Except.ok.inj done).symm⟩

theorem delete_instructions_ok [Libraries] (p : Program) (q : Logged (Program × Nat)) (id : MethodId)
    (insns : List InsnId) (done : p.deleteInstructions id insns = .ok q) :
    ∃ m, p.method? id = some m ∧
      q = (fun r => (r, (m.code.cut insns).2.length)) <$>
        (((p.updateMethod id fun m' => { m' with code := (m.code.cut insns).1 }).forgetAll id m.owner
          (m.code.cut insns).2.reverse).refresh [id]) := by
  cases found : p.method? id with
  | none => simp [deleteInstructions, found] at done
  | some m =>
      rw [delete_instructions_eq p id insns m found] at done
      exact ⟨m, rfl, (Except.ok.inj done).symm⟩

theorem class_name?_detach_field (p : Program) (id : FieldId) (owner : ClassId) (key : String)
    (other : ClassId) : (p.detachField id owner key).className? other = p.className? other :=
  class_name?_update_class (p.updateIndex (·.eraseField key id)) owner other _ fun _ => rfl

theorem class_name?_detach_method (p : Program) (id : MethodId) (owner : ClassId) (key : String)
    (other : ClassId) : (p.detachMethod id owner key).className? other = p.className? other :=
  class_name?_update_class (p.updateIndex (·.eraseMethod key id)) owner other _ fun _ => rfl

theorem find_field_key?_detach_field (p : Program) (id : FieldId) (owner : ClassId) (key other : String)
    (free : p.findFieldKey? other = none) : (p.detachField id owner key).findFieldKey? other = none := by
  change (p.index.fields.eraseIf key id).1.get? other = none
  rw [Table.get?_erase_if, show p.index.fields.get? other = none from free, ite_self]

theorem find_method_key?_detach_method (p : Program) (id : MethodId) (owner : ClassId)
    (key other : String) (free : p.findMethodKey? other = none) :
    (p.detachMethod id owner key).findMethodKey? other = none := by
  change (p.index.methods.eraseIf key id).1.get? other = none
  rw [Table.get?_erase_if, show p.index.methods.get? other = none from free, ite_self]

theorem move_field_ok (p q : Program) (id : FieldId) (destination : ClassId) (owned : p.Owned)
    (done : p.moveField id destination = .ok q) :
    ∃ f owner name, p.field? id = some f ∧ p.className? f.owner = some owner ∧
      p.className? destination = some name ∧ f.owner ≠ destination ∧
      p.findFieldKey? (Key.field name f.name) = none ∧ p.rebindsInherited id name f.name = false ∧
      q = f.references.toList.foldl (retarget · (mapFieldUse fun use => { use with owner := name }))
        ((p.detachField id f.owner (Key.field owner f.name)).placeField id destination
          (Key.field name f.name) { f with references := .empty }) := by
  simp only [moveField] at done
  cases found : p.field? id with
  | none => simp [found] at done
  | some f =>
      obtain ⟨owner, live⟩ := owned.fields id f found
      simp only [found] at done
      split at done
      · cases done
      · rename_i elsewhere
        cases target : p.className? destination with
        | none => simp [target] at done
        | some name =>
            simp only [target] at done
            split at done
            · cases done
            · rename_i allowed
              simp only [Bool.or_eq_true, not_or, Bool.not_eq_true] at allowed
              have free : p.findFieldKey? (Key.field name f.name) = none := by
                simpa using allowed.1
              refine ⟨f, owner, name, rfl, live, rfl, elsewhere, free, allowed.2, ?_⟩
              rw [live] at done
              have attached := attach_field_free (p.detachField id f.owner (Key.field owner f.name))
                destination id { f with references := .empty } name
                (by rw [class_name?_detach_field, target])
                (find_field_key?_detach_field p id f.owner _ _ free)
              have result := (congrArg (Except.map _) attached).symm.trans done
              exact (Except.ok.inj result).symm

theorem move_method_ok (p q : Program) (id : MethodId) (destination : ClassId) (owned : p.Owned)
    (done : p.moveMethod id destination = .ok q) :
    ∃ m owner target moved, p.method? id = some m ∧ p.className? m.owner = some owner ∧
      p.class? destination = some target ∧ m.owner ≠ destination ∧
      p.findMethodKey? (Key.method target.name m.name m.descriptor) = none ∧
      (p.forgetReferences id m.owner).method? id = some moved ∧ moved.naming = m.naming ∧
      q = ((moved.invocations.toList.foldl (retarget · (mapCall fun call =>
          { call with owner := target.name, isInterface := target.access.isInterface }))
        (((p.forgetReferences id m.owner).detachMethod id m.owner
            (Key.method owner m.name m.descriptor)).placeMethod id destination
          (Key.method target.name m.name m.descriptor)
          { moved with invocations := .empty })).resolveMethod id).1 := by
  simp only [moveMethod] at done
  cases found : p.method? id with
  | none => simp [found] at done
  | some m =>
      obtain ⟨owner, live⟩ := owned.methods id m found
      simp only [found] at done
      split at done
      · cases done
      · split at done
        · cases done
        · rename_i elsewhere
          cases there : p.class? destination with
          | none => simp [there] at done
          | some target =>
              simp only [there] at done
              split at done
              · cases done
              · rename_i allowed
                have free : p.findMethodKey? (Key.method target.name m.name m.descriptor) = none := by
                  simpa using allowed
                have same := same_names_forget_references p id m.owner
                have naming := same.methods id
                rw [methodNaming?, methodNaming?, found] at naming
                obtain ⟨moved, movedFound, movedNaming⟩ := Option.map_eq_some_iff.mp naming
                refine ⟨m, owner, target, moved, rfl, live, rfl, elsewhere, free, movedFound,
                  movedNaming, ?_⟩
                have name : moved.name = m.name := congrArg MethodNaming.name movedNaming
                have descriptor : moved.descriptor = m.descriptor :=
                  congrArg MethodNaming.descriptor movedNaming
                have liveStill : (p.forgetReferences id m.owner).className? m.owner = some owner := by
                  rw [same.class_name, live]
                have fetched : (((p.forgetReferences id m.owner).updateIndex fun x =>
                    x.eraseMethod (Key.method owner m.name m.descriptor) id).updateClass m.owner
                      fun c => { c with methods := c.methods.filter (· ≠ id) }).method? id =
                    some moved := movedFound
                simp only [liveStill, fetched, Option.getD_some] at done
                have freeKey : (p.forgetReferences id m.owner).findMethodKey?
                    (Key.method target.name m.name m.descriptor) = none := by
                  rw [findMethodKey?, same.index]
                  exact free
                have attached := attach_method_free ((p.forgetReferences id m.owner).detachMethod id
                  m.owner (Key.method owner m.name m.descriptor)) destination id
                  { moved with invocations := .empty } target.name
                  (by rw [class_name?_detach_method, same.class_name, className?, there]; rfl)
                  (by
                    rw [name, descriptor]
                    exact find_method_key?_detach_method _ id m.owner _ _ freeKey)
                have key : Key.method target.name moved.name moved.descriptor =
                    Key.method target.name m.name m.descriptor := by rw [name, descriptor]
                rw [show ({ moved with invocations := .empty } : Method).name = moved.name from rfl,
                  show ({ moved with invocations := .empty } : Method).descriptor =
                    moved.descriptor from rfl, key] at attached
                have result := (congrArg (Except.map _) attached).symm.trans done
                exact (Except.ok.inj result).symm

end Program

end JvmEdit
