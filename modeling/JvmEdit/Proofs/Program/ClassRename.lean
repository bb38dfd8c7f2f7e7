import JvmEdit.Proofs.Descriptor.Rename
import JvmEdit.Proofs.Program.Edits
import JvmEdit.Proofs.Program.Key
set_option autoImplicit false

namespace JvmEdit

namespace Program

def fieldKeyUnder (p : Program) (id : ClassId) (name : String) (field : FieldId) : String :=
  match p.fieldNaming? field with
  | some f => Key.field ((p.nameAfter id name f.owner).getD "") f.name
  | none => ""

def methodKeyUnder (p : Program) (id : ClassId) (name : String) (rewrite : String → String)
    (method : MethodId) : String :=
  match p.methodNaming? method with
  | some m => Key.method ((p.nameAfter id name m.owner).getD "") m.name (rewrite m.descriptor)
  | none => ""

def rekeyField (p : Program) (id : ClassId) (r : Renaming) :
    Table String FieldId → FieldId → Table String FieldId :=
  Table.rekey (p.fieldKeyUnder id r.old) (p.fieldKeyUnder id r.new)

def rekeyMethod (p : Program) (id : ClassId) (r : Renaming) :
    Table String MethodId → MethodId → Table String MethodId :=
  Table.rekey (p.methodKeyUnder id r.old fun d => d) (p.methodKeyUnder id r.new r.descriptor)

def renamedIndex (p : Program) (id : ClassId) (r : Renaming) : NameIndex where
  classes := (p.index.classes.eraseIf r.old id).1.insert r.new id
  fields := p.fieldIds.foldl (p.rekeyField id r) p.index.fields
  methods := p.methodIds.foldl (p.rekeyMethod id r) p.index.methods

-- A program whose class `id` has got its new name everywhere, but is not linked again yet.
def renamed (p : Program) (id : ClassId) (r : Renaming) : Program :=
  { p.unlinkClass id with
    index := p.renamedIndex id r
    classes := ((p.unlinkClass id).classes.modify id
      fun c => { c with name := r.new }).mapValues r.classHeader
    fields := p.fields.mapValues r.fieldText
    methods := p.methods.mapValues r.methodText }

theorem update_parents_classes (p : Program) (id : ClassId) (f g : Class → Class) :
    ∃ classes, p.updateParents id f g = { p with classes } := by
  refine update_parents_induct p id f g (fun q => ∃ classes, q = { p with classes }) ⟨_, rfl⟩ ?_ ?_
  · rintro q c ⟨classes, rfl⟩
    exact ⟨_, rfl⟩
  · rintro q c ⟨classes, rfl⟩
    exact ⟨_, rfl⟩

theorem unlink_class_classes (p : Program) (id : ClassId) :
    ∃ classes, p.unlinkClass id = { p with classes } := update_parents_classes p id _ _

section Carry

variable (p : Program) (id : ClassId) (r : Renaming)

theorem field_naming?_modify (q : Program) (field i : FieldId) :
    ({ q with fields := q.fields.modify field r.fieldText } : Program).fieldNaming? i =
      q.fieldNaming? i :=
  (same_names_update_field q field r.fieldText fun _ => rfl).fields i

theorem carry_field_eq (q : Program) (field : FieldId) (f : FieldNaming) (differ : r.old ≠ r.new)
    (naming : p.fieldNaming? field = some f) (still : q.fieldNaming? field = some f) :
    carryField r id q field = { q with
      fields := q.fields.modify field r.fieldText
      index := { q.index with fields := p.rekeyField id r q.index.fields field } } := by
  have rewritten := (field_naming?_modify r q field field).trans still
  obtain ⟨g, found, isF⟩ := Option.map_eq_some_iff.mp rewritten
  have before : p.fieldKeyUnder id r.old field =
      Key.field ((p.nameAfter id r.old f.owner).getD "") f.name := by rw [fieldKeyUnder, naming]
  have after : p.fieldKeyUnder id r.new field =
      Key.field ((p.nameAfter id r.new f.owner).getD "") f.name := by rw [fieldKeyUnder, naming]
  have owner_eq : g.owner = f.owner := congrArg FieldNaming.owner isF
  have name_eq : g.name = f.name := congrArg FieldNaming.name isF
  have found' : (q.updateField field r.fieldText).field? field = some g := found
  simp only [carryField]
  simp only [found', owner_eq, name_eq, rekeyField, Table.rekey, before, after, nameAfter]
  by_cases member : f.owner = id
  · have moves : Key.field r.old f.name ≠ Key.field r.new f.name := fun same =>
      differ (Key.field_left_cancel _ _ _ same)
    simp only [if_pos member, Option.getD_some, if_neg moves]
    rfl
  · simp only [if_neg member, if_true]
    rfl

theorem carry_fields_eq (q : Program) (fields : List FieldId) (differ : r.old ≠ r.new)
    (live : ∀ field ∈ fields, ∃ f, p.fieldNaming? field = some f ∧ q.fieldNaming? field = some f) :
    fields.foldl (carryField r id) q = { q with
      fields := fields.foldl (fun t field => t.modify field r.fieldText) q.fields
      index := { q.index with fields := fields.foldl (p.rekeyField id r) q.index.fields } } := by
  induction fields generalizing q with
  | nil => rfl
  | cons field fields ih =>
      obtain ⟨f, naming, still⟩ := live field List.mem_cons_self
      rw [List.foldl_cons, carry_field_eq p id r q field f differ naming still]
      refine (ih _ ?_).trans rfl
      intro other member
      obtain ⟨g, namingOther, stillOther⟩ := live other (List.mem_cons_of_mem _ member)
      exact ⟨g, namingOther, (field_naming?_modify r q field other).trans stillOther⟩

theorem carry_method_eq (q : Program) (method : MethodId) (m : MethodNaming) (owner : String)
    (naming : p.methodNaming? method = some m) (still : q.methodNaming? method = some m)
    (named : q.className? m.owner = some owner) (newName : p.nameAfter id r.new m.owner = some owner)
    (oldName : (p.nameAfter id r.old m.owner).getD "" = if m.owner = id then r.old else owner) :
    carryMethod r id q method = { q with
      methods := q.methods.modify method r.methodText
      index := { q.index with methods := p.rekeyMethod id r q.index.methods method } } := by
  obtain ⟨g, found, isM⟩ := Option.map_eq_some_iff.mp still
  have rewritten : (q.updateMethod method r.methodText).method? method = some (r.methodText g) := by
    rw [method?_update_method, if_pos rfl, found]
    rfl
  have owner_eq : g.owner = m.owner := congrArg MethodNaming.owner isM
  have name_eq : g.name = m.name := congrArg MethodNaming.name isM
  have descriptor_eq : g.descriptor = m.descriptor := congrArg MethodNaming.descriptor isM
  have before : p.methodKeyUnder id r.old (fun d => d) method =
      Key.method (if m.owner = id then r.old else owner) m.name m.descriptor := by
    rw [methodKeyUnder, naming]
    exact congrArg (Key.method · m.name m.descriptor) oldName
  have after : p.methodKeyUnder id r.new r.descriptor method =
      Key.method owner m.name (r.descriptor m.descriptor) := by
    simp only [methodKeyUnder, naming, newName, Option.getD_some]
  simp only [carryMethod]
  simp only [found, rewritten]
  have ownerText : (r.methodText g).owner = g.owner := rfl
  have nameText : (r.methodText g).name = g.name := rfl
  have descriptorText : (r.methodText g).descriptor = r.descriptor g.descriptor := rfl
  simp only [ownerText, nameText, descriptorText, owner_eq, named, rekeyMethod, Table.rekey, before,
    after, name_eq, descriptor_eq]
  by_cases same : Key.method (if m.owner = id then r.old else owner) m.name m.descriptor =
      Key.method owner m.name (r.descriptor m.descriptor)
  · rw [if_pos same]
    simp only [same, if_true]
    rfl
  · rw [if_neg same, if_neg same]
    rfl

theorem method_naming?_modify (q : Program) (method i : MethodId) (differ : method ≠ i) :
    ({ q with methods := q.methods.modify method r.methodText } : Program).methodNaming? i =
      q.methodNaming? i := by
  have step := Table.get?_modify q.methods method i r.methodText
  rw [if_neg differ] at step
  exact congrArg (Option.map Method.naming) step

theorem carry_methods_eq (q : Program) (methods : List MethodId) (unique : methods.Nodup)
    (live : ∀ method ∈ methods, ∃ m owner, p.methodNaming? method = some m ∧
      q.methodNaming? method = some m ∧ p.className? m.owner = some owner)
    (named : ∀ c, q.className? c = p.nameAfter id r.new c) :
    methods.foldl (carryMethod r id) q = { q with
      methods := methods.foldl (fun t method => t.modify method r.methodText) q.methods
      index := { q.index with methods := methods.foldl (p.rekeyMethod id r) q.index.methods } } := by
  induction methods generalizing q with
  | nil => rfl
  | cons method methods ih =>
      rw [List.nodup_cons] at unique
      obtain ⟨m, owner, naming, still, ownerNamed⟩ := live method List.mem_cons_self
      obtain ⟨name, newName, oldName⟩ : ∃ name, p.nameAfter id r.new m.owner = some name ∧
          (p.nameAfter id r.old m.owner).getD "" = if m.owner = id then r.old else name := by
        by_cases member : m.owner = id
        · exact ⟨r.new, by rw [nameAfter, if_pos member], by simp [nameAfter, member]⟩
        · exact ⟨owner, by rw [nameAfter, if_neg member, ownerNamed],
            by simp [nameAfter, member, ownerNamed]⟩
      have nameNow := (named m.owner).trans newName
      rw [List.foldl_cons, carry_method_eq p id r q method m name naming still nameNow newName oldName]
      refine (ih { q with
        methods := q.methods.modify method r.methodText
        index := { q.index with methods := p.rekeyMethod id r q.index.methods method } }
        unique.2 ?_ named).trans rfl
      intro other later
      obtain ⟨n, ownerOther, namingOther, stillOther, namedOther⟩ :=
        live other (List.mem_cons_of_mem _ later)
      have apart : method ≠ other := fun same => unique.1 (same ▸ later)
      exact ⟨n, ownerOther, namingOther, (method_naming?_modify r q method other apart).trans stillOther,
        namedOther⟩

end Carry

theorem foldl_update_class (p : Program) (f : Class → Class) (ids : List ClassId) :
    ids.foldl (fun q c => q.updateClass c f) p =
      { p with classes := ids.foldl (fun t c => t.modify c f) p.classes } := by
  induction ids generalizing p with
  | nil => rfl
  | cons id ids ih => exact ih _

theorem class_name?_rename (p : Program) (id : ClassId) (new : String) (live : (p.className? id).isSome)
    (c : ClassId) : (p.updateClass id fun c => { c with name := new }).className? c =
      p.nameAfter id new c := by
  rw [className?, class?_update_class, nameAfter]
  by_cases same : id = c
  · subst same
    rw [className?, Option.isSome_map] at live
    obtain ⟨found, eq⟩ := Option.isSome_iff_exists.mp live
    simp [eq]
  · rw [if_neg same, if_neg (Ne.symm same)]
    rfl

section Stages

variable (p : Program) (id : ClassId) (r : Renaming)

theorem class_name?_renamed (live : p.className? id = some r.old) (c : ClassId) :
    (p.renamed id r).className? c = p.nameAfter id r.new c := by
  have unlinked := same_names_unlink_class p id
  have stored : (p.renamed id r).class? c =
      (((p.unlinkClass id).updateClass id fun c => { c with name := r.new }).class? c).map
        r.classHeader := Table.get?_map_values _ _ _
  have kept : (p.renamed id r).className? c =
      ((p.unlinkClass id).updateClass id fun c => { c with name := r.new }).className? c := by
    rw [className?, stored, className?, Option.map_map]
    rfl
  rw [kept, class_name?_rename _ id r.new (by rw [unlinked.class_name, live]; rfl), nameAfter, nameAfter,
    unlinked.class_name]

-- The renamed program with its fields and methods, and their keys, as they were.
def headed : Program :=
  { p.renamed id r with
    index := { p.index with classes := (p.renamedIndex id r).classes }
    fields := p.fields
    methods := p.methods }

-- The renamed program with its methods and their keys as they were.
def carried : Program :=
  { p.renamed id r with
    index := { p.renamedIndex id r with methods := p.index.methods }
    methods := p.methods }

-- The class alone under its new name.
def retitleClass : Program :=
  ((p.unlinkClass id).updateIndex fun x => (x.eraseClass r.old id).insertClass r.new id).updateClass id
    fun c => { c with name := r.new }

def rewriteHeaders : Program :=
  (p.retitleClass id r).classIds.foldl (fun q c => q.updateClass c r.classHeader) (p.retitleClass id r)

def carryMembers : Program :=
  let fields := p.fieldIds.foldl (carryField r id) p
  fields.methodIds.foldl (carryMethod r id) fields

theorem rename_class_cases (q : Program) (new : String) (done : p.renameClass id new = .ok q) :
    ∃ old, p.className? id = some old ∧ (old = new ∧ q = p ∨
      old ≠ new ∧ p.findClass? new = none ∧
        firstRepeated? (p.methodKeysAfter ⟨old, new⟩ id) [] = none ∧
        q = ((p.rewriteHeaders id ⟨old, new⟩).carryMembers id ⟨old, new⟩).relinkClass id) := by
  simp only [renameClass] at done
  cases live : p.className? id with
  | none => simp [live] at done
  | some old =>
      simp only [live] at done
      refine ⟨old, rfl, ?_⟩
      split at done
      · rename_i same
        cases done
        exact Or.inl ⟨same, rfl⟩
      · rename_i differ
        split at done
        · cases done
        · rename_i free
          split at done
          · cases done
          · rename_i distinct
            exact Or.inr ⟨differ, by simpa using free, distinct, (Except.ok.inj done).symm⟩

theorem headed_steps (classes : p.classes.keys.Nodup) : p.rewriteHeaders id r = p.headed id r := by
  have keys : (p.retitleClass id r).classes.keys = p.classes.keys :=
    (Table.keys_modify _ _ _).trans (same_names_unlink_class p id).classIds
  have rows := Table.foldl_modify_keys (p.retitleClass id r).classes r.classHeader (keys ▸ classes)
  obtain ⟨_, frame⟩ := unlink_class_classes p id
  rw [rewriteHeaders, foldl_update_class, classIds, rows]
  simp only [headed, renamed, retitleClass, frame]
  rfl

theorem carried_steps (fields : p.fields.keys.Nodup) (differ : r.old ≠ r.new) :
    (p.headed id r).fieldIds.foldl (carryField r id) (p.headed id r) = p.carried id r := by
  have live : ∀ field ∈ p.fieldIds,
      ∃ f, p.fieldNaming? field = some f ∧ (p.headed id r).fieldNaming? field = some f := by
    intro field member
    obtain ⟨f, found⟩ := (Table.mem_keys_iff _ _).mp member
    have naming : p.fieldNaming? field = some f.naming := congrArg (Option.map Field.naming) found
    exact ⟨f.naming, naming, naming⟩
  have rows : p.fieldIds.foldl (fun t i => t.modify i r.fieldText) p.fields =
      p.fields.mapValues r.fieldText := Table.foldl_modify_keys p.fields r.fieldText fields
  refine (carry_fields_eq p id r (p.headed id r) p.fieldIds differ live).trans ?_
  rw [show (p.headed id r).fields = p.fields from rfl, rows]
  rfl

theorem renamed_steps (owned : p.Owned) (classes : p.classes.keys.Nodup)
    (fields : p.fields.keys.Nodup) (methods : p.methods.keys.Nodup) (differ : r.old ≠ r.new)
    (live : p.className? id = some r.old) :
    (p.rewriteHeaders id r).carryMembers id r = p.renamed id r := by
  rw [headed_steps p id r classes, carryMembers, carried_steps p id r fields differ]
  have present : ∀ method ∈ p.methodIds, ∃ m owner, p.methodNaming? method = some m ∧
      (p.carried id r).methodNaming? method = some m ∧ p.className? m.owner = some owner := by
    intro method member
    obtain ⟨m, found⟩ := (Table.mem_keys_iff _ _).mp member
    obtain ⟨owner, ownerNamed⟩ := owned.methods method m found
    have naming : p.methodNaming? method = some m.naming := congrArg (Option.map Method.naming) found
    exact ⟨m.naming, owner, naming, naming, ownerNamed⟩
  have rows : p.methodIds.foldl (fun t i => t.modify i r.methodText) p.methods =
      p.methods.mapValues r.methodText := Table.foldl_modify_keys p.methods r.methodText methods
  refine (carry_methods_eq p id r (p.carried id r) p.methodIds methods present
    (class_name?_renamed p id r live)).trans ?_
  rw [show (p.carried id r).methods = p.methods from rfl, rows]
  rfl

end Stages

theorem rename_class_ok (p q : Program) (id : ClassId) (new : String) (owned : p.Owned)
    (classes : p.classes.keys.Nodup) (fields : p.fields.keys.Nodup) (methods : p.methods.keys.Nodup)
    (done : p.renameClass id new = .ok q) :
    ∃ old, p.className? id = some old ∧ (old = new ∧ q = p ∨
      old ≠ new ∧ p.findClass? new = none ∧
        firstRepeated? (p.methodKeysAfter ⟨old, new⟩ id) [] = none ∧
        q = (p.renamed id ⟨old, new⟩).relinkClass id) := by
  obtain ⟨old, live, same | ⟨differ, free, distinct, rfl⟩⟩ := rename_class_cases p id q new done
  · exact ⟨old, live, .inl same⟩
  · refine ⟨old, live, .inr ⟨differ, free, distinct, ?_⟩⟩
    rw [renamed_steps p id ⟨old, new⟩ owned classes fields methods differ live]

-- What becomes of the methods does not depend on whether the index is exact.
section Methods

variable (p : Program) (r : Renaming) (id : ClassId)

theorem methods_relink_class : (p.relinkClass id).methods = p.methods := by
  have linked : (p.linkClass id).methods = p.methods := methods_update_parents p id _ _
  simp only [relinkClass]
  split
  · exact linked
  · exact linked

theorem methods_carry_field (field : FieldId) : (carryField r id p field).methods = p.methods := by
  simp only [carryField]
  split
  · split <;> rfl
  · rfl

theorem methods_carry_method (method : MethodId) :
    (carryMethod r id p method).methods = p.methods.modify method r.methodText := by
  simp only [carryMethod]
  split
  · split
    · rfl
    · split <;> split <;> rfl
  · rfl

theorem methods_carry_fields (fields : List FieldId) :
    (fields.foldl (carryField r id) p).methods = p.methods := by
  induction fields generalizing p with
  | nil => rfl
  | cons field fields ih => exact (ih _).trans (methods_carry_field p r id field)

theorem methods_carry_methods (methods : List MethodId) :
    (methods.foldl (carryMethod r id) p).methods =
      methods.foldl (fun t method => t.modify method r.methodText) p.methods := by
  induction methods generalizing p with
  | nil => rfl
  | cons method methods ih =>
      rw [List.foldl_cons, ih, methods_carry_method]
      rfl

theorem methods_rename_class (q : Program) (new : String) (unique : p.methods.keys.Nodup)
    (done : p.renameClass id new = .ok q) :
    ∃ old, p.className? id = some old ∧
      q.methods = p.methods.mapValues (Renaming.methodText ⟨old, new⟩) := by
  obtain ⟨old, live, ⟨rfl, rfl⟩ | ⟨_, _, _, rfl⟩⟩ := rename_class_cases p id q new done
  · refine ⟨old, live, ?_⟩
    simp [Table.mapValues, Renaming.method_text_self]
  · refine ⟨old, live, ?_⟩
    have unlinked : (p.unlinkClass id).methods = p.methods := methods_update_parents p id _ _
    rw [methods_relink_class, carryMembers, methods_carry_methods, methodIds, methods_carry_fields,
      rewriteHeaders, foldl_update_class]
    change (p.unlinkClass id).methods.keys.foldl _ (p.unlinkClass id).methods = _
    rw [unlinked]
    exact Table.foldl_modify_keys p.methods _ unique

end Methods

end Program

end JvmEdit
