import JvmEdit.Program.Consistency
import JvmEdit.Proofs.Index.Exact
import JvmEdit.Proofs.Program.Key
import JvmEdit.Stream
set_option autoImplicit false

namespace JvmEdit

-- The owner and the name of what a field instruction or a call names have no dot.
def Operand.Plain : Operand → Prop
  | .field u => Undotted u.owner ∧ Undotted u.name
  | .call c => Undotted c.owner ∧ Undotted c.name
  | _ => True

instance Operand.decidablePlain : (o : Operand) → Decidable o.Plain
  | .field u => inferInstanceAs (Decidable (Undotted u.owner ∧ Undotted u.name))
  | .call c => inferInstanceAs (Decidable (Undotted c.owner ∧ Undotted c.name))
  | .label _ | .simple | .int _ | .var _ | .increment .. | .constant _ | .jump _ | .switch ..
  | .dynamicCall _ | .type _ | .newArray _ | .multiArray .. => inferInstanceAs (Decidable True)

theorem Operand.plain_map_labels (f : LabelId → LabelId) (o : Operand) (plain : o.Plain) :
    (o.mapLabels f).Plain := by
  cases o <;> exact plain

namespace Stream

-- Every instruction is found under its identity, and names what it names without dots.
structure Fits (code : Stream) : Prop where
  unique : (code.toList.map (·.id)).Nodup
  plain : ∀ i ∈ code.toList, i.operand.Plain

theorem fits_empty : Stream.empty.Fits := ⟨List.nodup_nil, fun _ member => by cases member⟩

theorem mem_of_get? (code : Stream) (id : InsnId) (i : Instruction) (found : code.get? id = some i) :
    i ∈ code.toList ∧ i.id = id := by
  have same := List.find?_some found
  exact ⟨List.mem_of_find?_eq_some found, by simpa using same⟩

theorem get?_of_mem (code : Stream) (i : Instruction) (unique : (code.toList.map (·.id)).Nodup)
    (member : i ∈ code.toList) : code.get? i.id = some i := by
  obtain ⟨rows⟩ := code
  change (rows.map (·.id)).Nodup at unique
  change i ∈ rows at member
  change rows.find? (·.id = i.id) = some i
  induction rows with
  | nil => cases member
  | cons j rows ih =>
      rw [List.map_cons, List.nodup_cons] at unique
      rcases List.mem_cons.mp member with atHead | later
      · subst atHead
        simp
      · have differ : j.id ≠ i.id := fun same =>
          unique.1 (same ▸ List.mem_map.mpr ⟨i, later, rfl⟩)
        simpa [List.find?_cons, differ] using ih unique.2 later

theorem update_cons (i : Instruction) (rows : List Instruction) (id : InsnId)
    (f : Instruction → Instruction) : (Stream.mk (i :: rows)).update id f =
      if i.id = id then ⟨f i :: rows⟩ else ⟨i :: ((Stream.mk rows).update id f).toList⟩ := by
  simp only [update, position?]
  by_cases same : i.id = id
  · simp [List.findIdx?_cons, same]
  · rw [if_neg same]
    cases found : rows.findIdx? (·.id = id) with
    | none => simp [List.findIdx?_cons, same, found]
    | some position => simp [List.findIdx?_cons, same, found]

theorem ids_update (code : Stream) (id : InsnId) (f : Instruction → Instruction)
    (keeps : ∀ i, (f i).id = i.id) :
    (code.update id f).toList.map (·.id) = code.toList.map (·.id) := by
  obtain ⟨rows⟩ := code
  induction rows with
  | nil => rfl
  | cons i rows ih =>
      rw [update_cons]
      split
      · simp [keeps]
      · exact congrArg (i.id :: ·) ih

theorem mem_update (code : Stream) (id : InsnId) (f : Instruction → Instruction) (j : Instruction)
    (member : j ∈ (code.update id f).toList) : j ∈ code.toList ∨ ∃ i ∈ code.toList, j = f i := by
  obtain ⟨rows⟩ := code
  induction rows with
  | nil => exact Or.inl member
  | cons i rows ih =>
      rw [update_cons] at member
      split at member
      · rcases List.mem_cons.mp member with atHead | later
        · exact Or.inr ⟨i, List.mem_cons_self, atHead⟩
        · exact Or.inl (List.mem_cons_of_mem _ later)
      · rcases List.mem_cons.mp member with atHead | later
        · exact Or.inl (atHead ▸ List.mem_cons_self)
        · rcases ih later with kept | ⟨k, kMember, isK⟩
          · exact Or.inl (List.mem_cons_of_mem _ kept)
          · exact Or.inr ⟨k, List.mem_cons_of_mem _ kMember, isK⟩

theorem get?_update (code : Stream) (id other : InsnId) (f : Instruction → Instruction)
    (keeps : ∀ i, (f i).id = i.id) :
    (code.update id f).get? other =
      if id = other then (code.get? other).map f else code.get? other := by
  obtain ⟨rows⟩ := code
  induction rows with
  | nil => simp [update, position?, get?]
  | cons i rows ih =>
      rw [update_cons]
      by_cases changed : i.id = id
      · rw [if_pos changed]
        by_cases hit : i.id = other
        · have same : id = other := changed.symm.trans hit
          simp [get?, keeps, hit, same]
        · have differ : id ≠ other := fun same => hit (changed.trans same)
          simp [get?, keeps, hit, differ]
      · rw [if_neg changed]
        change List.find? (·.id = other) (i :: _) = _
        by_cases hit : i.id = other
        · have differ : id ≠ other := fun same => changed (hit.trans same.symm)
          simp [get?, hit, differ]
        · rw [List.find?_cons_of_neg (by simpa using hit)]
          refine ih.trans ?_
          simp [get?, hit]

theorem get?_remove_apart (code : Stream) (id other : InsnId) (apart : id ≠ other) :
    (code.remove id).get? other = code.get? other := by
  obtain ⟨rows⟩ := code
  change (rows.eraseP (·.id = id)).find? (·.id = other) = rows.find? (·.id = other)
  induction rows with
  | nil => rfl
  | cons i rows ih =>
      by_cases gone : i.id = id
      · have differ : i.id ≠ other := fun hit => apart (gone.symm.trans hit)
        rw [List.eraseP_cons_of_pos (by simpa using gone),
          List.find?_cons_of_neg (by simpa using differ)]
      · rw [List.eraseP_cons_of_neg (by simpa using gone)]
        by_cases hit : i.id = other
        · simp [hit]
        · rw [List.find?_cons_of_neg (by simpa using hit), ih,
            List.find?_cons_of_neg (by simpa using hit)]

theorem get?_remove_same (code : Stream) (id : InsnId) (unique : (code.toList.map (·.id)).Nodup) :
    (code.remove id).get? id = none := by
  obtain ⟨rows⟩ := code
  change (rows.map (·.id)).Nodup at unique
  change (rows.eraseP (·.id = id)).find? (·.id = id) = none
  induction rows with
  | nil => rfl
  | cons i rows ih =>
      rw [List.map_cons, List.nodup_cons] at unique
      by_cases gone : i.id = id
      · rw [List.eraseP_cons_of_pos (by simpa using gone), List.find?_eq_none]
        intro j member
        have differ : j.id ≠ id := fun hit =>
          unique.1 (gone.trans hit.symm ▸ List.mem_map.mpr ⟨j, member, rfl⟩)
        simpa using differ
      · rw [List.eraseP_cons_of_neg (by simpa using gone),
          List.find?_cons_of_neg (by simpa using gone), ih unique.2]

theorem get?_remove (code : Stream) (id other : InsnId) (unique : (code.toList.map (·.id)).Nodup) :
    (code.remove id).get? other = if id = other then none else code.get? other := by
  by_cases same : id = other
  · rw [if_pos same, ← same]
    exact get?_remove_same code id unique
  · rw [if_neg same]
    exact get?_remove_apart code id other same

theorem fits_update (code : Stream) (id : InsnId) (f : Operand → Operand) (fits : code.Fits)
    (keepsPlain : ∀ o, o.Plain → (f o).Plain) :
    (code.update id fun i => { i with operand := f i.operand }).Fits where
  unique := by
    rw [ids_update code id _ ?_]
    · exact fits.unique
    · intro i
      rfl
  plain := fun j member => by
    rcases mem_update _ _ _ _ member with kept | ⟨i, iMember, rfl⟩
    · exact fits.plain j kept
    · exact keepsPlain _ (fits.plain i iMember)

theorem fits_remove (code : Stream) (id : InsnId) (fits : code.Fits) : (code.remove id).Fits where
  unique := List.Nodup.sublist (List.Sublist.map _ List.eraseP_sublist) fits.unique
  plain := fun i member => fits.plain i (List.eraseP_sublist.mem member)

end Stream

namespace Program

def super? (p : Program) (id : ClassId) : Option String := (p.class? id).bind (·.superName)

def site? (p : Program) (ref : InsnRef) : Option (ClassId × Operand) :=
  (p.method? ref.method).bind fun m => (m.code.get? ref.insn).map fun i => (m.owner, i.operand)

def records (p : Program) : Target → OrderedSet InsnRef
  | .field id => ((p.field? id).map (·.references)).getD .empty
  | .method id => ((p.method? id).map (·.invocations)).getD .empty
  | .class id => ((p.class? id).map (·.typeReferences)).getD .empty

-- A target that can hold records.
def Live (p : Program) : Target → Prop
  | .field id => (p.fieldNaming? id).isSome
  | .method id => (p.methodNaming? id).isSome
  | .class id => (p.classNaming? id).isSome

def Holds (p : Program) (target : Target) (ref : InsnRef) : Prop := ref ∈ p.records target

-- Every recorded instruction is live and names the entity that records it.
def Sound (p : Program) : Prop := ∀ target ref, p.Holds target ref → p.target? ref = some target

def Coded (p : Program) : Prop := ∀ id m, p.method? id = some m → m.code.Fits

theorem target?_eq (p : Program) (ref : InsnRef) :
    p.target? ref = (p.site? ref).bind fun site => p.lookup? (some site.1) site.2 := by
  rw [target?, site?]
  cases p.method? ref.method with
  | none => rfl
  | some m => cases found : m.code.get? ref.insn <;> simp [found]

theorem inherited_field?_eq (p : Program) (context : ClassId) (name : String) :
    p.inheritedField? (some context) name =
      (p.super? context).bind fun superName => p.findField? superName name := rfl

theorem finds_of_index {p q : Program} (index : q.index = p.index) :
    q.findClass? = p.findClass? ∧ q.findFieldKey? = p.findFieldKey? ∧
      q.findMethodKey? = p.findMethodKey? := by
  unfold findClass? findFieldKey? findMethodKey?
  rw [index]
  exact ⟨rfl, rfl, rfl⟩

theorem lookup?_congr (p q : Program) (index : q.index = p.index)
    (supers : ∀ c, q.super? c = p.super? c) (context : ClassId) (operand : Operand) :
    q.lookup? (some context) operand = p.lookup? (some context) operand := by
  obtain ⟨classes, fields, methods⟩ := finds_of_index index
  have inherited : ∀ name, q.inheritedField? (some context) name =
      p.inheritedField? (some context) name := by
    intro name
    rw [inherited_field?_eq, inherited_field?_eq, supers]
    simp only [findField?, fields]
  cases operand <;> simp only [lookup?, classes, fields, methods, inherited]

-- The programs agree in everything that decides what a live instruction names.
structure SameSites (p q : Program) : Prop where
  index : q.index = p.index
  supers : ∀ c, q.super? c = p.super? c
  sites : ∀ ref, q.site? ref = p.site? ref
  coded : p.Coded → q.Coded

namespace SameSites

theorem refl (p : Program) : SameSites p p := ⟨rfl, fun _ => rfl, fun _ => rfl, fun coded => coded⟩

theorem trans {p q r : Program} (first : SameSites p q) (second : SameSites q r) : SameSites p r :=
  ⟨second.index.trans first.index, fun c => (second.supers c).trans (first.supers c),
    fun ref => (second.sites ref).trans (first.sites ref),
    fun coded => second.coded (first.coded coded)⟩

theorem foldl {α : Type} (f : Program → α → Program) (keeps : ∀ p x, SameSites p (f p x))
    (xs : List α) (p : Program) : SameSites p (xs.foldl f p) := by
  induction xs generalizing p with
  | nil => exact refl p
  | cons x xs ih => exact (keeps p x).trans (ih (f p x))

theorem lookup? {p q : Program} (same : SameSites p q) (context : ClassId) (operand : Operand) :
    q.lookup? (some context) operand = p.lookup? (some context) operand :=
  lookup?_congr p q same.index same.supers context operand

theorem target? {p q : Program} (same : SameSites p q) (ref : InsnRef) :
    q.target? ref = p.target? ref := by
  rw [target?_eq, target?_eq, same.sites]
  simp only [same.lookup?]

end SameSites

theorem sound_same_sites (p q : Program) (same : SameSites p q)
    (fewer : ∀ target ref, q.Holds target ref → p.Holds target ref) (sound : p.Sound) : q.Sound := by
  intro target ref held
  rw [same.target?]
  exact sound target ref (fewer target ref held)

theorem Sound.only {p : Program} (sound : p.Sound) (target other : Target) (ref : InsnRef)
    (held : p.Holds target ref) (heldToo : p.Holds other ref) : target = other := by
  have first := sound target ref held
  rw [sound other ref heldToo] at first
  exact (Option.some.inj first).symm

theorem Sound.site {p : Program} (sound : p.Sound) (target : Target) (ref : InsnRef)
    (held : p.Holds target ref) : ∃ context operand, p.site? ref = some (context, operand) ∧
      p.lookup? (some context) operand = some target := by
  have named := sound target ref held
  rw [target?_eq] at named
  obtain ⟨⟨context, operand⟩, site, found⟩ := Option.bind_eq_some_iff.mp named
  exact ⟨context, operand, site, found⟩

section Updates

variable (p : Program)

theorem super?_update_class (id : ClassId) (f : Class → Class)
    (keeps : ∀ c, (f c).superName = c.superName) (c : ClassId) :
    (p.updateClass id f).super? c = p.super? c := by
  rw [super?, class?_update_class, super?]
  by_cases same : id = c
  · rw [if_pos same]
    cases p.class? c <;> simp [keeps]
  · rw [if_neg same]

theorem same_sites_update_class (id : ClassId) (f : Class → Class)
    (keeps : ∀ c, (f c).superName = c.superName) : SameSites p (p.updateClass id f) :=
  ⟨rfl, super?_update_class p id f keeps, fun _ => rfl, fun coded => coded⟩

theorem same_sites_update_field (id : FieldId) (f : Field → Field) : SameSites p (p.updateField id f) :=
  ⟨rfl, fun _ => rfl, fun _ => rfl, fun coded => coded⟩

theorem same_sites_update_method (id : MethodId) (f : Method → Method)
    (keeps : ∀ m, (f m).owner = m.owner ∧ (f m).code = m.code) :
    SameSites p (p.updateMethod id f) := by
  refine ⟨rfl, fun _ => rfl, ?_, ?_⟩
  · intro ref
    rw [site?, method?_update_method, site?]
    by_cases same : id = ref.method
    · rw [if_pos same]
      cases p.method? ref.method with
      | none => rfl
      | some m => simp [(keeps m).1, (keeps m).2]
    · rw [if_neg same]
  · intro coded other m found
    rw [method?_update_method] at found
    by_cases same : id = other
    · rw [if_pos same] at found
      obtain ⟨before, foundBefore, rfl⟩ := Option.map_eq_some_iff.mp found
      rw [(keeps before).2]
      exact coded other before foundBefore
    · rw [if_neg same] at found
      exact coded other m found

theorem records_update_class (id : ClassId) (f : Class → Class)
    (keeps : ∀ c, (f c).typeReferences = c.typeReferences) (target : Target) :
    (p.updateClass id f).records target = p.records target := by
  cases target with
  | field _ => rfl
  | method _ => rfl
  | «class» other =>
      rw [records, class?_update_class, records]
      by_cases same : id = other
      · simp [same, Function.comp_def, keeps]
      · simp [same]

theorem records_update_field (id : FieldId) (f : Field → Field)
    (keeps : ∀ field, (f field).references = field.references) (target : Target) :
    (p.updateField id f).records target = p.records target := by
  cases target with
  | method _ => rfl
  | «class» _ => rfl
  | field other =>
      rw [records, field?_update_field, records]
      by_cases same : id = other
      · simp [same, Function.comp_def, keeps]
      · simp [same]

theorem records_update_method (id : MethodId) (f : Method → Method)
    (keeps : ∀ m, (f m).invocations = m.invocations) (target : Target) :
    (p.updateMethod id f).records target = p.records target := by
  cases target with
  | field _ => rfl
  | «class» _ => rfl
  | method other =>
      rw [records, method?_update_method, records]
      by_cases same : id = other
      · simp [same, Function.comp_def, keeps]
      · simp [same]

theorem same_sites_record (target : Target) (ref : InsnRef) : SameSites p (p.record target ref) := by
  cases target with
  | field id => exact same_sites_update_field p id _
  | method id => exact same_sites_update_method p id _ fun _ => ⟨rfl, rfl⟩
  | «class» id => exact same_sites_update_class p id _ fun _ => rfl

theorem same_sites_unrecord (target : Target) (ref : InsnRef) :
    SameSites p (p.unrecord target ref) := by
  cases target with
  | field id => exact same_sites_update_field p id _
  | method id => exact same_sites_update_method p id _ fun _ => ⟨rfl, rfl⟩
  | «class» id => exact same_sites_update_class p id _ fun _ => rfl

theorem records_record (target other : Target) (ref : InsnRef) (live : p.Live target) :
    (p.record target ref).records other =
      if target = other then (p.records other).insert ref else p.records other := by
  cases target with
  | field id =>
      cases other with
      | field i =>
          rw [records, record, field?_update_field, records]
          by_cases same : id = i
          · subst same
            rw [Live, fieldNaming?, Option.isSome_map] at live
            obtain ⟨f, found⟩ := Option.isSome_iff_exists.mp live
            simp [found]
          · simp [same]
      | method _ => rfl
      | «class» _ => rfl
  | method id =>
      cases other with
      | method i =>
          rw [records, record, method?_update_method, records]
          by_cases same : id = i
          · subst same
            rw [Live, methodNaming?, Option.isSome_map] at live
            obtain ⟨m, found⟩ := Option.isSome_iff_exists.mp live
            simp [found]
          · simp [same]
      | field _ => rfl
      | «class» _ => rfl
  | «class» id =>
      cases other with
      | «class» i =>
          rw [records, record, class?_update_class, records]
          by_cases same : id = i
          · subst same
            rw [Live, classNaming?, Option.isSome_map] at live
            obtain ⟨c, found⟩ := Option.isSome_iff_exists.mp live
            simp [found]
          · simp [same]
      | field _ => rfl
      | method _ => rfl

theorem records_record_dead (target other : Target) (ref : InsnRef) (dead : ¬p.Live target) :
    (p.record target ref).records other = p.records other := by
  cases target with
  | field id =>
      have gone : p.field? id = none := by simpa [Live, fieldNaming?] using dead
      cases other with
      | field i =>
          rw [records, record, field?_update_field, records]
          by_cases same : id = i
          · simp [← same, gone]
          · simp [same]
      | _ => rfl
  | method id =>
      have gone : p.method? id = none := by simpa [Live, methodNaming?] using dead
      cases other with
      | method i =>
          rw [records, record, method?_update_method, records]
          by_cases same : id = i
          · simp [← same, gone]
          · simp [same]
      | _ => rfl
  | «class» id =>
      have gone : p.class? id = none := by simpa [Live, classNaming?] using dead
      cases other with
      | «class» i =>
          rw [records, record, class?_update_class, records]
          by_cases same : id = i
          · simp [← same, gone]
          · simp [same]
      | _ => rfl

theorem records_unrecord (target other : Target) (ref : InsnRef) :
    (p.unrecord target ref).records other =
      if target = other then (p.records other).erase ref else p.records other := by
  cases target with
  | field id =>
      cases other with
      | field i =>
          rw [records, unrecord, field?_update_field, records]
          by_cases same : id = i
          · subst same
            cases p.field? id <;> simp
          · simp [same]
      | _ => rfl
  | method id =>
      cases other with
      | method i =>
          rw [records, unrecord, method?_update_method, records]
          by_cases same : id = i
          · subst same
            cases p.method? id <;> simp
          · simp [same]
      | _ => rfl
  | «class» id =>
      cases other with
      | «class» i =>
          rw [records, unrecord, class?_update_class, records]
          by_cases same : id = i
          · subst same
            cases p.class? id <;> simp
          · simp [same]
      | _ => rfl

theorem holds_record (target other : Target) (ref held : InsnRef)
    (holds : (p.record target ref).Holds other held) :
    p.Holds other held ∨ (other = target ∧ held = ref) := by
  by_cases live : p.Live target
  · rw [Holds, records_record p target other ref live] at holds
    by_cases same : target = other
    · rw [if_pos same] at holds
      rcases (OrderedSet.mem_insert _ _ _).mp holds with isRef | before
      · exact Or.inr ⟨same.symm, isRef⟩
      · exact Or.inl before
    · rw [if_neg same] at holds
      exact Or.inl holds
  · rw [Holds, records_record_dead p target other ref live] at holds
    exact Or.inl holds

theorem holds_unrecord_iff (target other : Target) (ref held : InsnRef) :
    (p.unrecord target ref).Holds other held ↔ p.Holds other held ∧ ¬(other = target ∧ held = ref) := by
  rw [Holds, records_unrecord]
  by_cases same : target = other
  · rw [if_pos same, OrderedSet.mem_erase]
    simp [Holds, same]
  · simp [Holds, same, Ne.symm same]

theorem holds_remember (context : ClassId) (ref : InsnRef) (operand : Operand) (other : Target)
    (held : InsnRef) (holds : (p.remember context ref operand).Holds other held) :
    p.Holds other held ∨ (p.lookup? (some context) operand = some other ∧ held = ref) := by
  simp only [remember] at holds
  cases found : p.lookup? (some context) operand with
  | none =>
      rw [found] at holds
      exact Or.inl holds
  | some target =>
      rw [found] at holds
      rcases holds_record p target other ref held holds with before | ⟨isTarget, isRef⟩
      · exact Or.inl before
      · exact Or.inr ⟨congrArg some isTarget.symm, isRef⟩

theorem same_sites_remember (context : ClassId) (ref : InsnRef) (operand : Operand) :
    SameSites p (p.remember context ref operand) := by
  simp only [remember]
  split
  · exact same_sites_record p _ ref
  · exact .refl p

theorem same_sites_forget (context : ClassId) (ref : InsnRef) (operand : Operand) :
    SameSites p (p.forget context ref operand) := by
  simp only [forget]
  split
  · exact same_sites_unrecord p _ ref
  · exact .refl p

theorem holds_forget (context : ClassId) (ref : InsnRef) (operand : Operand) (other : Target)
    (held : InsnRef) (holds : (p.forget context ref operand).Holds other held) :
    p.Holds other held ∧ ¬(p.lookup? (some context) operand = some other ∧ held = ref) := by
  simp only [forget] at holds
  cases found : p.lookup? (some context) operand with
  | none =>
      rw [found] at holds
      exact ⟨holds, by simp⟩
  | some target =>
      rw [found] at holds
      obtain ⟨before, differ⟩ := (holds_unrecord_iff p target other ref held).mp holds
      exact ⟨before, fun both => differ ⟨(Option.some.inj both.1).symm, both.2⟩⟩

theorem same_sites_refresh_method [Libraries] (id : MethodId) : SameSites p (p.refreshMethod id) :=
  (same_sites_update_method p id Method.collectLocals fun _ => ⟨rfl, rfl⟩).trans
    (same_sites_update_method _ id Method.withGraph fun _ => ⟨rfl, rfl⟩)

theorem records_refresh_method [Libraries] (id : MethodId) (target : Target) :
    (p.refreshMethod id).records target = p.records target :=
  (records_update_method _ id Method.withGraph (fun _ => rfl) target).trans
    (records_update_method p id Method.collectLocals (fun _ => rfl) target)

theorem sound_refresh [Libraries] (ids : List MethodId) (sound : p.Sound) :
    (p.refresh ids).value.Sound := by
  rw [refresh_program]
  induction ids generalizing p with
  | nil => exact sound
  | cons id ids ih =>
      refine ih _ (sound_same_sites p _ (same_sites_refresh_method p id) ?_ sound)
      intro target ref held
      rwa [Holds, records_refresh_method] at held

theorem same_sites_refresh [Libraries] (ids : List MethodId) : SameSites p (p.refresh ids).value := by
  rw [refresh_program]
  exact .foldl _ (fun q id => same_sites_refresh_method q id) ids p

theorem sound_remember (context : ClassId) (ref : InsnRef) (operand : Operand) (sound : p.Sound)
    (site : p.site? ref = some (context, operand)) : (p.remember context ref operand).Sound := by
  intro target held holds
  rw [(same_sites_remember p context ref operand).target?]
  rcases holds_remember p context ref operand target held holds with before | ⟨named, rfl⟩
  · exact sound target held before
  · rw [target?_eq, site]
    exact named

end Updates

end Program

end JvmEdit
