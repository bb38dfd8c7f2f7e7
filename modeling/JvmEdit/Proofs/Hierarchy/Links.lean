import JvmEdit.Proofs.Edit.Atomic
import JvmEdit.Proofs.Program.Session
set_option autoImplicit false

namespace JvmEdit

structure ClassLinks where
  name : String
  superName : Option String
  interfaces : List String
  subclasses : OrderedSet ClassId
  implementers : OrderedSet ClassId
  deriving DecidableEq, Repr

def Class.links (c : Class) : ClassLinks :=
  ⟨c.name, c.superName, c.interfaces, c.subclasses, c.implementers⟩

namespace Program

def classLinks? (p : Program) (id : ClassId) : Option ClassLinks := (p.class? id).map Class.links

-- The programs differ in nothing that the links between classes depend on. Identities may have
-- been used up in between.
structure SameLinks (p q : Program) : Prop where
  index : q.index.classes = p.index.classes
  counter : p.nextId ≤ q.nextId
  classIds : q.classIds = p.classIds
  classes : ∀ id, q.classLinks? id = p.classLinks? id

namespace SameLinks

theorem refl (p : Program) : SameLinks p p := ⟨rfl, Nat.le_refl _, rfl, fun _ => rfl⟩

theorem trans {p q r : Program} (first : SameLinks p q) (second : SameLinks q r) : SameLinks p r :=
  ⟨second.index.trans first.index, Nat.le_trans first.counter second.counter,
    second.classIds.trans first.classIds, fun id => (second.classes id).trans (first.classes id)⟩

theorem foldl {α : Type} (f : Program → α → Program) (keeps : ∀ p x, SameLinks p (f p x))
    (xs : List α) (p : Program) : SameLinks p (xs.foldl f p) := by
  induction xs generalizing p with
  | nil => exact refl p
  | cons x xs ih => exact (keeps p x).trans (ih (f p x))

theorem find_class {p q : Program} (same : SameLinks p q) (name : String) :
    q.findClass? name = p.findClass? name := by rw [findClass?, same.index, findClass?]

theorem reads {α : Type} {p q : Program} (same : SameLinks p q) (get : ClassLinks → α)
    (id : ClassId) : ((q.class? id).map fun c => get c.links) = (p.class? id).map fun c => get c.links := by
  have links := congrArg (Option.map get) (same.classes id)
  rwa [classLinks?, classLinks?, Option.map_map, Option.map_map] at links

theorem class_name {p q : Program} (same : SameLinks p q) (id : ClassId) :
    q.className? id = p.className? id := same.reads ClassLinks.name id

theorem superclass {p q : Program} (same : SameLinks p q) (c : ClassId) :
    q.superclass? c = p.superclass? c := by
  have supers := congrArg (Option.bind · id) (same.reads ClassLinks.superName c)
  rw [Option.bind_map, Option.bind_map] at supers
  have found : q.findClass? = p.findClass? := funext same.find_class
  exact (congrArg (Option.bind · q.findClass?) supers).trans (by rw [found]; rfl)

end SameLinks

section Steps

variable (p : Program)

theorem same_links_members (q : Program) (index : q.index.classes = p.index.classes)
    (counter : p.nextId ≤ q.nextId) (classes : q.classes = p.classes) : SameLinks p q where
  index := index
  counter := counter
  classIds := congrArg Table.keys classes
  classes := fun id => congrArg (fun t => (Table.get? t id).map Class.links) classes

theorem same_links_update_class (id : ClassId) (f : Class → Class) (keeps : ∀ c, (f c).links = c.links) :
    SameLinks p (p.updateClass id f) := by
  refine ⟨rfl, Nat.le_refl _, Table.keys_modify _ _ _, ?_⟩
  intro other
  rw [classLinks?, class?_update_class, classLinks?]
  by_cases same : id = other
  · simp [same, Function.comp_def, keeps]
  · simp [same]

theorem same_links_update_field (id : FieldId) (f : Field → Field) :
    SameLinks p (p.updateField id f) := same_links_members p _ rfl (Nat.le_refl _) rfl

theorem same_links_update_method (id : MethodId) (f : Method → Method) :
    SameLinks p (p.updateMethod id f) := same_links_members p _ rfl (Nat.le_refl _) rfl

theorem same_links_advance (count : Nat) : SameLinks p (p.advance count) :=
  same_links_members p _ rfl (Nat.le_add_right _ _) rfl

theorem same_links_record (target : Target) (ref : InsnRef) : SameLinks p (p.record target ref) := by
  cases target with
  | field id => exact same_links_update_field p id _
  | method id => exact same_links_update_method p id _
  | «class» id => exact same_links_update_class p id _ fun _ => rfl

theorem same_links_unrecord (target : Target) (ref : InsnRef) :
    SameLinks p (p.unrecord target ref) := by
  cases target with
  | field id => exact same_links_update_field p id _
  | method id => exact same_links_update_method p id _
  | «class» id => exact same_links_update_class p id _ fun _ => rfl

theorem same_links_forget (context : ClassId) (ref : InsnRef) (operand : Operand) :
    SameLinks p (p.forget context ref operand) := by
  simp only [forget]
  split
  · exact same_links_unrecord p _ ref
  · exact .refl p

theorem same_links_forget_references (id : MethodId) (context : ClassId) :
    SameLinks p (p.forgetReferences id context) :=
  .foldl _ (fun q (i : Instruction) => same_links_forget q context ⟨id, i.id⟩ i.operand) _ p

theorem same_links_remember (context : ClassId) (ref : InsnRef) (operand : Operand) :
    SameLinks p (p.remember context ref operand) := by
  simp only [remember]
  split
  · exact same_links_record p _ ref
  · exact .refl p

theorem same_links_update_operand (ref : InsnRef) (f : Operand → Operand) :
    SameLinks p (p.updateOperand ref f) := same_links_update_method p ref.method _

theorem same_links_resolve_instruction (ref : InsnRef) :
    SameLinks p (p.resolveInstruction ref).1 := by
  simp only [resolveInstruction]
  split
  · exact same_links_record p _ ref
  · exact .refl p

theorem same_links_retarget (f : Operand → Operand) (ref : InsnRef) :
    SameLinks p (p.retarget f ref) :=
  (same_links_update_operand p ref f).trans (same_links_resolve_instruction _ ref)

theorem same_links_update_all (refs : OrderedSet InsnRef) (f : Operand → Operand) :
    SameLinks p (p.updateAll refs f) :=
  .foldl _ (fun q ref => same_links_update_operand q ref f) _ p

theorem same_links_remove_instructions (refs : List InsnRef) :
    SameLinks p (p.removeInstructions refs).1 := by
  rw [remove_instructions_program]
  refine .foldl _ (fun q ref => ?_) refs p
  simp only [removeInstruction]
  split
  · exact same_links_update_method q ref.method _
  · exact .refl q

theorem same_links_resolve_method (id : MethodId) : SameLinks p (p.resolveMethod id).1 := by
  cases found : p.method? id with
  | none =>
      rw [resolve_method_dead p id found]
      exact .refl p
  | some m =>
      rw [resolve_method_program p id m found]
      exact .foldl _ (fun q (i : Instruction) => same_links_remember q m.owner ⟨id, i.id⟩ i.operand) _ p

theorem same_links_resolve_all : SameLinks p p.resolveAll.1 := by
  rw [resolve_all_program]
  exact .foldl _ same_links_resolve_method _ p

theorem same_links_refresh [Libraries] (ids : List MethodId) : SameLinks p (p.refresh ids).value := by
  rw [refresh_program]
  exact .foldl _ (fun q id => (same_links_update_method q id _).trans (same_links_update_method _ id _))
    ids p

theorem same_links_place_field (id : FieldId) (owner : ClassId) (key : String) (field : Field) :
    SameLinks p (p.placeField id owner key field) := by
  have stored := same_links_members p { p with
    fields := p.fields.insert id { field with owner }, index := p.index.insertField key id }
    rfl (Nat.le_refl _) rfl
  exact stored.trans (same_links_update_class _ owner _ fun _ => rfl)

theorem same_links_place_method (id : MethodId) (owner : ClassId) (key : String) (method : Method) :
    SameLinks p (p.placeMethod id owner key method) := by
  have stored := same_links_members p { p with
    methods := p.methods.insert id { method with owner }, index := p.index.insertMethod key id }
    rfl (Nat.le_refl _) rfl
  exact stored.trans (same_links_update_class _ owner _ fun _ => rfl)

theorem same_links_attach_field (q : Program) (owner : ClassId) (id : FieldId) (field : Field)
    (done : p.attachField owner id field = .ok q) : SameLinks p q := by
  obtain ⟨key, _, _, rfl⟩ := attach_field_ok p q owner id field done
  exact same_links_place_field p id owner _ field

theorem same_links_attach_method (q : Program) (owner : ClassId) (id : MethodId) (method : Method)
    (done : p.attachMethod owner id method = .ok q) : SameLinks p q := by
  obtain ⟨key, _, _, rfl⟩ := attach_method_ok p q owner id method done
  exact same_links_place_method p id owner _ method

theorem same_links_unindex_field (id : FieldId) (owner : Option String) (name : String) :
    SameLinks p (match owner with
      | some owner => p.updateIndex (·.eraseField (Key.field owner name) id)
      | none => p) := by
  cases owner with
  | none => exact .refl p
  | some owner => exact same_links_members p _ rfl (Nat.le_refl _) rfl

theorem same_links_unindex_method (id : MethodId) (owner : Option String) (name descriptor : String) :
    SameLinks p (match owner with
      | some owner => p.updateIndex (·.eraseMethod (Key.method owner name descriptor) id)
      | none => p) := by
  cases owner with
  | none => exact .refl p
  | some owner => exact same_links_members p _ rfl (Nat.le_refl _) rfl

theorem same_links_unlist_field (id : FieldId) (owner : ClassId) :
    SameLinks p (p.updateClass owner fun c => { c with fields := c.fields.filter (· ≠ id) }) :=
  same_links_update_class p owner _ fun _ => rfl

theorem same_links_unlist_method (id : MethodId) (owner : ClassId) :
    SameLinks p (p.updateClass owner fun c => { c with methods := c.methods.filter (· ≠ id) }) :=
  same_links_update_class p owner _ fun _ => rfl

theorem same_links_erase_field (id : FieldId) :
    SameLinks p { p with fields := p.fields.erase id } :=
  same_links_members p _ rfl (Nat.le_refl _) rfl

theorem same_links_erase_method (id : MethodId) :
    SameLinks p { p with methods := p.methods.erase id } :=
  same_links_members p _ rfl (Nat.le_refl _) rfl

theorem same_links_withdraw_field (id : FieldId) (f : Field) : SameLinks p (p.withdrawField id f) := by
  have unindexed := same_links_unindex_field p id (p.className? f.owner) f.name
  have unlisted := unindexed.trans (same_links_unlist_field _ id f.owner)
  exact unlisted.trans (same_links_erase_field _ id)

theorem same_links_withdraw_method (id : MethodId) (m : Method) :
    SameLinks p (p.withdrawMethod id m) := by
  have unindexed := same_links_unindex_method p id (p.className? m.owner) m.name m.descriptor
  have unlisted := unindexed.trans (same_links_unlist_method _ id m.owner)
  exact unlisted.trans (same_links_erase_method _ id)

end Steps

section Edits

variable (p q : Program)

theorem same_links_rename_field (id : FieldId) (new : String) (done : p.renameField id new = .ok q) :
    SameLinks p q := by
  obtain ⟨f, _, ⟨_, rfl⟩ | ⟨owner, _, _, _, _, _, rfl⟩⟩ := rename_field_ok p q id new done
  · exact .refl q
  · have relabelled : SameLinks p (p.relabelField id owner f.name new) :=
      same_links_members p _ rfl (Nat.le_refl _) rfl
    exact relabelled.trans (same_links_update_all _ _ _)

theorem same_links_rename_method (id : MethodId) (new : String) (done : p.renameMethod id new = .ok q) :
    SameLinks p q := by
  obtain ⟨m, _, _, ⟨_, rfl⟩ | ⟨owner, _, _, _, rfl⟩⟩ := rename_method_ok p q id new done
  · exact .refl q
  · have relabelled : SameLinks p (p.relabelMethod id owner m.name new m.descriptor) :=
      same_links_members p _ rfl (Nat.le_refl _) rfl
    exact relabelled.trans (same_links_update_all _ _ _)

theorem same_links_delete_field [Libraries] (logged : Logged Program) (id : FieldId)
    (done : p.deleteField id = .ok logged) : SameLinks p logged.value := by
  simp only [deleteField] at done
  split at done
  · cases done
  · rename_i f _
    cases done
    have removed := same_links_remove_instructions p f.references.toList
    have unlisted := removed.trans (same_links_unlist_field _ id f.owner)
    refine .trans ?_ (same_links_refresh _ _)
    refine .trans ?_ (same_links_erase_field _ id)
    exact unlisted.trans (same_links_unindex_field _ id _ f.name)

theorem same_links_delete_method [Libraries] (logged : Logged Program) (id : MethodId)
    (done : p.deleteMethod id = .ok logged) : SameLinks p logged.value := by
  simp only [deleteMethod] at done
  split at done
  · cases done
  · rename_i m _
    cases done
    have forgotten := same_links_forget_references p id m.owner
    have removed := forgotten.trans
      (same_links_remove_instructions _ (m.invocations.toList.filter (·.method ≠ id)))
    have unlisted := removed.trans (same_links_unlist_method _ id m.owner)
    refine .trans ?_ (same_links_refresh _ _)
    refine .trans ?_ (same_links_erase_method _ id)
    exact unlisted.trans (same_links_unindex_method _ id _ m.name m.descriptor)

theorem same_links_move_field (id : FieldId) (destination : ClassId)
    (done : p.moveField id destination = .ok q) : SameLinks p q := by
  obtain ⟨f, name, _, _, rfl⟩ := move_field_transfers p q destination id done
  refine .trans ?_ (.foldl _ (fun q ref => same_links_retarget q _ ref) _ _)
  exact (same_links_withdraw_field p id f).trans (same_links_place_field _ id destination _ _)

theorem same_links_move_method (id : MethodId) (destination : ClassId)
    (done : p.moveMethod id destination = .ok q) : SameLinks p q := by
  obtain ⟨m, target, _, _, rfl⟩ := move_method_transfers p q destination id done
  have taken := (same_links_forget_references p id m.owner).trans (same_links_withdraw_method _ id m)
  refine .trans ?_ (same_links_resolve_method _ id)
  refine .trans ?_ (.foldl _ (fun q ref => same_links_retarget q _ ref) _ _)
  exact taken.trans (same_links_place_method _ id destination _ _)

theorem same_links_forget_all (id : MethodId) (context : ClassId) (removed : List Instruction) :
    SameLinks p (p.forgetAll id context removed) := by
  refine .foldl _ (fun q (i : Instruction) => ?_) removed p
  split
  · exact same_links_forget q context _ i.operand
  · exact .refl q

theorem same_links_delete_instructions [Libraries] (logged : Logged (Program × Nat)) (id : MethodId)
    (insns : List InsnId) (done : p.deleteInstructions id insns = .ok logged) :
    SameLinks p logged.value.1 := by
  obtain ⟨m, _, rfl⟩ := delete_instructions_ok p logged id insns done
  have shortened := same_links_update_method p id fun m' => { m' with code := (m.code.cut insns).1 }
  refine .trans ?_ (same_links_refresh _ [id])
  exact shortened.trans (same_links_forget_all _ id m.owner _)

theorem same_links_edit_body [Libraries] (logged : Logged Program) (id : MethodId) (f : Method → Method)
    (done : p.editBody id f = .ok logged) : SameLinks p logged.value := by
  obtain ⟨m, _, rfl⟩ := edit_body_ok p logged id f done
  exact (same_links_update_method p id f).trans (same_links_refresh _ _)

end Edits

end Program

end JvmEdit
