import JvmEdit.Libraries.Standard
import JvmEdit.Proofs.Edit.Atomic
import JvmEdit.Proofs.References.Relocation
set_option autoImplicit false

namespace JvmEdit

-- What a member goes by. Fields go by no descriptor.
structure MemberName where
  owner : String
  name : String
  descriptor : Option String
  deriving DecidableEq, Repr

def Constant.memberName? : Constant → Option MemberName
  | .methodHandle kind owner name descriptor _ =>
      some ⟨owner, name, if kind ≤ HiddenUses.lastFieldKind then none else some descriptor⟩
  | _ => none

def Operand.constant? : Operand → Option Constant
  | .constant value => some value
  | _ => none

-- Where a program holds a constant that can be a handle.
inductive ConstantPlace
  | loaded (ref : InsnRef)
  | bootstrap (holder : ClassId) (index : Nat)
  | argument (holder : ClassId) (index position : Nat)
  deriving DecidableEq, Repr

namespace MemberEdit

def subject : MemberEdit → Target
  | .renameField id _ | .moveField id _ | .deleteField id => .field id
  | .renameMethod id _ | .moveMethod id _ | .deleteMethod id | .deleteInstructions id _ => .method id

-- The name that an edit gives a member in place of its own.
def rename (p : Program) (e : MemberEdit) (old : MemberName) : MemberName :=
  match e with
  | .renameField _ new | .renameMethod _ new => { old with name := new }
  | .moveField _ destination | .moveMethod _ destination =>
      { old with owner := (p.className? destination).getD old.owner }
  | .deleteField _ | .deleteMethod _ | .deleteInstructions .. => old

end MemberEdit

namespace Program

def memberName? (p : Program) : Target → Option MemberName
  | .field id => (p.fieldNaming? id).bind fun f =>
      (p.className? f.owner).map fun owner => ⟨owner, f.name, none⟩
  | .method id => (p.methodNaming? id).bind fun m =>
      (p.className? m.owner).map fun owner => ⟨owner, m.name, some m.descriptor⟩
  | .class _ => none

def bootstrap? (p : Program) (holder : ClassId) (index : Nat) : Option BootstrapMethod :=
  (p.class? holder).bind (·.bootstrapMethods[index]?)

def constantAt? (p : Program) : ConstantPlace → Option Constant
  | .loaded ref => (p.instruction? ref).bind (·.operand.constant?)
  | .bootstrap holder index => (p.bootstrap? holder index).map (·.handle)
  | .argument holder index position => (p.bootstrap? holder index).bind (·.arguments[position]?)

-- The constant is a handle for the member.
def Denotes (p : Program) (value : Constant) (target : Target) : Prop :=
  ∃ name, value.memberName? = some name ∧ p.memberName? target = some name

-- The edit gives its member the name that the member has.
def Idles (p : Program) (e : MemberEdit) : Prop :=
  ∀ old, p.memberName? e.subject = some old → e.rename p old = old

-- Some place holds a handle for the member.
def Handled (p : Program) (target : Target) : Prop :=
  ∃ place value, p.constantAt? place = some value ∧ p.Denotes value target

-- Wherever there was a handle for the member, there is one still.
def KeepsHandles (p q : Program) (target : Target) : Prop :=
  ∀ place value, p.constantAt? place = some value → p.Denotes value target →
    ∃ value', q.constantAt? place = some value' ∧ q.Denotes value' target

-- The programs hold the same constants in the same places.
structure SameConstants (p q : Program) : Prop where
  code : ∀ ref, (q.instruction? ref).bind (·.operand.constant?) =
    (p.instruction? ref).bind (·.operand.constant?)
  bootstraps : ∀ c, (q.class? c).map (·.bootstrapMethods) = (p.class? c).map (·.bootstrapMethods)

namespace SameConstants

theorem refl (p : Program) : SameConstants p p := ⟨fun _ => rfl, fun _ => rfl⟩

theorem trans {p q r : Program} (first : SameConstants p q) (second : SameConstants q r) :
    SameConstants p r :=
  ⟨fun ref => (second.code ref).trans (first.code ref),
    fun c => (second.bootstraps c).trans (first.bootstraps c)⟩

theorem foldl {α : Type} (f : Program → α → Program) (keeps : ∀ p x, SameConstants p (f p x))
    (xs : List α) (p : Program) : SameConstants p (xs.foldl f p) := by
  induction xs generalizing p with
  | nil => exact refl p
  | cons x xs ih => exact (keeps p x).trans (ih (f p x))

theorem constant_at? {p q : Program} (same : SameConstants p q) (place : ConstantPlace) :
    q.constantAt? place = p.constantAt? place := by
  have bootstraps : ∀ holder index, q.bootstrap? holder index = p.bootstrap? holder index := by
    intro holder index
    have rows := congrArg (Option.bind · (·[index]?)) (same.bootstraps holder)
    simp only [Option.bind_map] at rows
    exact rows
  cases place with
  | loaded ref => exact same.code ref
  | bootstrap holder index => rw [Program.constantAt?, bootstraps, Program.constantAt?]
  | argument holder index position => rw [Program.constantAt?, bootstraps, Program.constantAt?]

end SameConstants

section Steps

variable (p : Program)

theorem same_constants_of_bare (q : Program) (same : q.bare = p.bare) : SameConstants p q := by
  constructor
  · intro ref
    have code := congrArg (Option.map (·.code)) (method?_of_bare p q same ref.method)
    rw [Option.map_map, Option.map_map] at code
    have found := congrArg (Option.bind · (·.get? ref.insn)) code
    simp only [Option.bind_map] at found
    exact congrArg (Option.bind · (·.operand.constant?)) found
  · intro c
    have rows := congrArg (Option.map (·.bootstrapMethods)) (class?_of_bare p q same c)
    rw [Option.map_map, Option.map_map] at rows
    exact rows

theorem same_constants_method_changed (q : Program) (id : MethodId) (f : Method → Method)
    (methods : q.methods = p.methods.modify id f) (classes : q.classes = p.classes)
    (keeps : ∀ m insn, ((f m).code.get? insn).bind (·.operand.constant?) =
      (m.code.get? insn).bind (·.operand.constant?)) : SameConstants p q := by
  constructor
  · intro ref
    rw [instruction?, method?, methods, instruction?]
    refine (congrArg (fun row => (Option.bind row _).bind _) (method?_update_method p id ref.method f)).trans ?_
    by_cases same : id = ref.method
    · rw [if_pos same]
      cases p.method? ref.method with
      | none => rfl
      | some m => exact keeps m ref.insn
    · rw [if_neg same]
  · intro c
    rw [class?, classes]
    rfl

theorem same_constants_class_changed (q : Program) (id : ClassId) (f : Class → Class)
    (methods : q.methods = p.methods) (classes : q.classes = p.classes.modify id f)
    (keeps : ∀ c, (f c).bootstrapMethods = c.bootstrapMethods) : SameConstants p q := by
  constructor
  · intro ref
    rw [instruction?, method?, methods]
    rfl
  · intro c
    rw [class?, classes]
    refine (congrArg _ (class?_update_class p id c f)).trans ?_
    by_cases same : id = c
    · rw [if_pos same]
      cases p.class? c with
      | none => rfl
      | some row => exact congrArg some (keeps row)
    · rw [if_neg same]

section Retarget

variable (f : Operand → Operand) (keeps : ∀ o, (f o).constant? = o.constant?)

include keeps

theorem same_constants_update_operand (ref : InsnRef) : SameConstants p (p.updateOperand ref f) := by
  refine same_constants_method_changed p _ ref.method
    (fun m => { m with code := m.code.update ref.insn fun i => { i with operand := f i.operand } })
    rfl rfl fun m insn => ?_
  have changed := m.code.get?_update ref.insn insn (fun i => { i with operand := f i.operand })
    fun _ => rfl
  dsimp only
  rw [changed]
  by_cases same : ref.insn = insn
  · rw [if_pos same]
    cases m.code.get? insn with
    | none => rfl
    | some i => exact keeps i.operand
  · rw [if_neg same]

theorem same_constants_retarget (ref : InsnRef) : SameConstants p (p.retarget f ref) := by
  refine (same_constants_update_operand p f keeps ref).trans ?_
  apply same_constants_of_bare
  simp only [retarget, resolveInstruction]
  split
  · exact bare_record _ _ ref
  · rfl

end Retarget

theorem constant?_map_field_use (f : FieldUse → FieldUse) (o : Operand) :
    (mapFieldUse f o).constant? = o.constant? := by cases o <;> rfl

theorem constant?_map_call (f : Call → Call) (o : Operand) : (mapCall f o).constant? = o.constant? := by
  cases o <;> rfl

theorem same_constants_withdraw_field (id : FieldId) (f : Field) :
    SameConstants p (p.withdrawField id f) := by
  unfold withdrawField
  cases p.className? f.owner <;>
    exact same_constants_class_changed p _ f.owner
      (fun c => { c with fields := c.fields.filter (· ≠ id) }) rfl rfl fun _ => rfl

theorem same_constants_unlist_method (id : MethodId) (m : Method) :
    SameConstants p (p.unlistMethod id m) := by
  unfold unlistMethod
  cases p.className? m.owner <;>
    exact same_constants_class_changed p _ m.owner
      (fun c => { c with methods := c.methods.filter (· ≠ id) }) rfl rfl fun _ => rfl

theorem same_constants_place_field (id : FieldId) (owner : ClassId) (key : String) (field : Field) :
    SameConstants p (p.placeField id owner key field) :=
  same_constants_class_changed p _ owner (fun c => { c with fields := c.fields ++ [id] }) rfl rfl
    fun _ => rfl

theorem same_constants_replaced (id : MethodId) (m moved : Method) (destination : ClassId)
    (key : String) (live : p.method? id = some moved) :
    SameConstants p ((p.withdrawMethod id m).placeMethod id destination key
      { moved with invocations := .empty }) := by
  have unlisted := same_constants_unlist_method p id m
  constructor
  · intro ref
    rw [instruction?, method?_place_method, instruction?]
    by_cases same : id = ref.method
    · rw [if_pos same, ← same, live]
      rfl
    · rw [if_neg same]
      have kept : (p.withdrawMethod id m).method? ref.method = p.method? ref.method := by
        refine (Table.get?_erase _ id ref.method).trans ((if_neg same).trans ?_)
        exact method?_unlist_method p id m ref.method
      rw [kept]
  · intro c
    let placed := (p.withdrawMethod id m).placeMethod id destination key { moved with invocations := .empty }
    have listed := same_constants_class_changed { p.unlistMethod id m with methods := placed.methods } placed
      destination (fun c => { c with methods := c.methods ++ [id] }) rfl rfl fun _ => rfl
    exact (listed.bootstraps c).trans (unlisted.bootstraps c)

theorem member_name?_same_names (q : Program) (same : SameNames p q) (target : Target) :
    q.memberName? target = p.memberName? target := by
  cases target with
  | field id => simp only [memberName?, same.fields, same.class_name]
  | method id => simp only [memberName?, same.methods, same.class_name]
  | «class» id => rfl

end Steps

-- The member an edit is about goes by the name that the edit gives it, and nothing else by a new name.
structure Relabels (p q : Program) (e : MemberEdit) : Prop where
  others : ∀ target, target ≠ e.subject → q.memberName? target = p.memberName? target
  own : ∀ name, p.memberName? e.subject = some name → q.memberName? e.subject = some (e.rename p name)

namespace Relabels

theorem trans {p q r : Program} {e : MemberEdit} (relabels : Relabels p q e) (same : SameNames q r) :
    Relabels p r e where
  others target apart := (member_name?_same_names q r same target).trans (relabels.others target apart)
  own name named := (member_name?_same_names q r same e.subject).trans (relabels.own name named)

end Relabels

section Relabelling

variable (p q : Program) (e : MemberEdit) (classNames : ∀ c, q.className? c = p.className? c)

include classNames

theorem relabels_field (id : FieldId) (f : FieldNaming) (isSubject : e.subject = .field id)
    (named : q.fieldNaming? id = some f)
    (others : ∀ i, id ≠ i → q.fieldNaming? i = p.fieldNaming? i)
    (methods : ∀ i, q.methodNaming? i = p.methodNaming? i)
    (follows : ∀ old, p.memberName? (.field id) = some old →
      (p.className? f.owner).map (fun owner => ⟨owner, f.name, none⟩) = some (e.rename p old)) :
    Relabels p q e := by
  constructor
  · intro target apart
    cases target with
    | field i =>
        have differ : id ≠ i := fun same => apart (same ▸ isSubject.symm)
        simp only [memberName?, others i differ, classNames]
    | method i => simp only [memberName?, methods, classNames]
    | «class» _ => rfl
  · intro old isOld
    rw [isSubject] at isOld ⊢
    simp only [memberName?, named, Option.bind_some, classNames]
    exact follows old isOld

theorem relabels_method (id : MethodId) (m : MethodNaming) (isSubject : e.subject = .method id)
    (named : q.methodNaming? id = some m)
    (others : ∀ i, id ≠ i → q.methodNaming? i = p.methodNaming? i)
    (fields : ∀ i, q.fieldNaming? i = p.fieldNaming? i)
    (follows : ∀ old, p.memberName? (.method id) = some old →
      (p.className? m.owner).map (fun owner => ⟨owner, m.name, some m.descriptor⟩) =
        some (e.rename p old)) : Relabels p q e := by
  constructor
  · intro target apart
    cases target with
    | method i =>
        have differ : id ≠ i := fun same => apart (same ▸ isSubject.symm)
        simp only [memberName?, others i differ, classNames]
    | field i => simp only [memberName?, fields, classNames]
    | «class» _ => rfl
  · intro old isOld
    rw [isSubject] at isOld ⊢
    simp only [memberName?, named, Option.bind_some, classNames]
    exact follows old isOld

end Relabelling

section Edits

variable (p q : Program)

theorem relabels_same (e : MemberEdit)
    (same : ∀ old, p.memberName? e.subject = some old → e.rename p old = old) : Relabels p p e :=
  ⟨fun _ _ => rfl, fun old isOld => (same old isOld).symm ▸ isOld⟩

theorem handles_rename_field (id : FieldId) (new : String) (done : p.renameField id new = .ok q) :
    SameConstants p q ∧ Relabels p q (.renameField id new) := by
  obtain ⟨f, found, outcome⟩ := rename_field_ok p q id new done
  have naming : p.fieldNaming? id = some f.naming := by rw [fieldNaming?, found]; rfl
  rcases outcome with ⟨same, rfl⟩ | ⟨owner, _, live, _, _, _, rfl⟩
  · refine ⟨.refl q, relabels_same q _ fun old isOld => ?_⟩
    simp only [MemberEdit.subject, memberName?, naming, Option.bind_some] at isOld
    obtain ⟨owner, _, rfl⟩ := Option.map_eq_some_iff.mp isOld
    exact congrArg (MemberName.mk owner · none) same.symm
  · let relabelled := p.relabelField id owner f.name new
    have constants : SameConstants p relabelled := ⟨fun _ => rfl, fun _ => rfl⟩
    constructor
    · refine constants.trans (.foldl _ (fun r ref => ?_) _ _)
      exact same_constants_update_operand r _ (constant?_map_field_use _) ref
    · refine Relabels.trans ?_ (same_names_update_all relabelled f.references _)
      refine relabels_field p relabelled _ (fun _ => rfl) id ⟨f.owner, new⟩ rfl ?_ ?_ (fun _ => rfl) ?_
      · rw [field_naming?_relabel_field, if_pos rfl, naming]
        rfl
      · intro i differ
        rw [field_naming?_relabel_field, if_neg differ]
      · intro old isOld
        simp only [memberName?, naming, Option.bind_some] at isOld
        obtain ⟨owner', live', rfl⟩ := Option.map_eq_some_iff.mp isOld
        exact congrArg (Option.map _) live'

theorem handles_rename_method (id : MethodId) (new : String) (done : p.renameMethod id new = .ok q) :
    SameConstants p q ∧ Relabels p q (.renameMethod id new) := by
  obtain ⟨m, found, _, outcome⟩ := rename_method_ok p q id new done
  have naming : p.methodNaming? id = some m.naming := by rw [methodNaming?, found]; rfl
  rcases outcome with ⟨same, rfl⟩ | ⟨owner, _, live, _, rfl⟩
  · refine ⟨.refl q, relabels_same q _ fun old isOld => ?_⟩
    simp only [MemberEdit.subject, memberName?, naming, Option.bind_some] at isOld
    obtain ⟨owner, _, rfl⟩ := Option.map_eq_some_iff.mp isOld
    exact congrArg (MemberName.mk owner · (some m.descriptor)) same.symm
  · let relabelled := p.relabelMethod id owner m.name new m.descriptor
    have constants := same_constants_method_changed p relabelled id (fun m => { m with name := new })
      rfl rfl fun _ _ => rfl
    constructor
    · refine constants.trans (.foldl _ (fun r ref => ?_) _ _)
      exact same_constants_update_operand r _ (constant?_map_call _) ref
    · refine Relabels.trans ?_ (same_names_update_all relabelled m.invocations _)
      refine relabels_method p relabelled _ (fun _ => rfl) id ⟨m.owner, new, m.descriptor⟩ rfl ?_ ?_
        (fun _ => rfl) ?_
      · rw [method_naming?_relabel_method, if_pos rfl, naming]
        rfl
      · intro i differ
        rw [method_naming?_relabel_method, if_neg differ]
      · intro old isOld
        simp only [memberName?, naming, Option.bind_some] at isOld
        obtain ⟨owner', live', rfl⟩ := Option.map_eq_some_iff.mp isOld
        exact congrArg (Option.map _) live'

theorem methods_withdraw_field (id : FieldId) (f : Field) : (p.withdrawField id f).methods = p.methods := by
  unfold withdrawField
  cases p.className? f.owner <;> rfl

theorem field?_withdraw_field (id : FieldId) (f : Field) (i : FieldId) (differ : id ≠ i) :
    (p.withdrawField id f).field? i = p.field? i := by
  unfold withdrawField
  cases p.className? f.owner <;> exact (Table.get?_erase p.fields id i).trans (if_neg differ)

theorem handles_move_field (id : FieldId) (destination : ClassId)
    (done : p.moveField id destination = .ok q) :
    SameConstants p q ∧ Relabels p q (.moveField id destination) := by
  obtain ⟨f, goal, found, there, rfl⟩ := move_field_transfers p q destination id done
  have naming : p.fieldNaming? id = some f.naming := by rw [fieldNaming?, found]; rfl
  let taken := p.withdrawField id f
  let placed := taken.placeField id destination (Key.field goal f.name) { f with references := .empty }
  have constants : SameConstants p placed :=
    (same_constants_withdraw_field p id f).trans (same_constants_place_field taken id destination _ _)
  have classNames : ∀ c, placed.className? c = p.className? c := fun c =>
    ((relists_place_field taken id destination _ _).class_name c).trans (p.class_name?_withdraw_field id f c)
  constructor
  · refine constants.trans (.foldl _ (fun r ref => ?_) _ _)
    exact same_constants_retarget r _ (constant?_map_field_use _) ref
  · refine Relabels.trans ?_ (.foldl _ (fun r ref => same_names_retarget r _ ref) _ _)
    refine relabels_field p placed _ classNames id ⟨destination, f.name⟩ rfl ?_ ?_ ?_ ?_
    · exact (field_naming?_place_field taken id destination _ _ id).trans (if_pos rfl)
    · intro i differ
      refine (field_naming?_place_field taken id destination _ _ i).trans ((if_neg differ).trans ?_)
      exact congrArg (Option.map Field.naming) (field?_withdraw_field p id f i differ)
    · intro i
      exact congrArg (fun rows => (rows.get? i).map Method.naming) (methods_withdraw_field p id f)
    · intro old isOld
      simp only [memberName?, naming, Option.bind_some] at isOld
      obtain ⟨owner', live', rfl⟩ := Option.map_eq_some_iff.mp isOld
      simp only [MemberEdit.rename, there]
      rfl

theorem fields_withdraw_method (id : MethodId) (m : Method) :
    (p.withdrawMethod id m).fields = p.fields := by
  unfold withdrawMethod unlistMethod
  cases p.className? m.owner <;> rfl

theorem method?_withdraw_method (id : MethodId) (m : Method) (i : MethodId) (differ : id ≠ i) :
    (p.withdrawMethod id m).method? i = p.method? i := by
  refine (Table.get?_erase _ id i).trans ((if_neg differ).trans ?_)
  exact method?_unlist_method p id m i

theorem handles_move_method (id : MethodId) (destination : ClassId)
    (done : p.moveMethod id destination = .ok q) :
    SameConstants p q ∧ Relabels p q (.moveMethod id destination) := by
  obtain ⟨m, target, found, there, rfl⟩ := move_method_transfers p q destination id done
  obtain ⟨moved, live, label⟩ := p.method?_forget_references id m m.owner found
  have naming : p.methodNaming? id = some m.naming := by rw [methodNaming?, found]; rfl
  let forgotten := p.forgetReferences id m.owner
  have names := same_names_forget_references p id m.owner
  let taken := forgotten.withdrawMethod id m
  let placed := taken.placeMethod id destination (Key.method target.name moved.name moved.descriptor)
    { moved with invocations := .empty }
  have constants : SameConstants p placed :=
    (same_constants_of_bare p forgotten (bare_forget_references p id m.owner)).trans
      (same_constants_replaced forgotten id m moved destination _ live)
  have classNames : ∀ c, placed.className? c = p.className? c := by
    intro c
    refine ((relists_place_method taken id destination _ _).class_name c).trans ?_
    exact (forgotten.class_name?_withdraw_method id m c).trans (names.class_name c)
  rw [transferMethod, live, Option.getD_some]
  constructor
  · refine constants.trans (.trans ?_ (same_constants_of_bare _ _ (resolve_method_frame _ id).1))
    exact .foldl _ (fun r ref => same_constants_retarget r _ (constant?_map_call _) ref) _ _
  · refine Relabels.trans ?_ (.trans (.foldl _ (fun r ref => same_names_retarget r _ ref) _ _)
      (same_names_resolve_method _ id))
    refine relabels_method p placed _ classNames id ⟨destination, m.name, m.descriptor⟩ rfl ?_ ?_ ?_ ?_
    · refine (method_naming?_place_method taken id destination _ _ id).trans ((if_pos rfl).trans ?_)
      exact congrArg (fun n : MethodNaming => some (MethodNaming.mk destination n.name n.descriptor)) label
    · intro i differ
      refine (method_naming?_place_method taken id destination _ _ i).trans ((if_neg differ).trans ?_)
      refine .trans (congrArg (Option.map Method.naming) ?_) (names.methods i)
      exact method?_withdraw_method forgotten id m i differ
    · intro i
      refine .trans ?_ (names.fields i)
      exact congrArg (fun rows => (rows.get? i).map Field.naming) (fields_withdraw_method forgotten id m)
    · intro old isOld
      simp only [memberName?, naming, Option.bind_some] at isOld
      obtain ⟨owner', live', rfl⟩ := Option.map_eq_some_iff.mp isOld
      simp only [MemberEdit.rename, className?, there]
      rfl

theorem handles_edit [Libraries] (e : MemberEdit) (relocates : e.Relocates) (done : p.edit e = .ok q) :
    SameConstants p q ∧ Relabels p q e := by
  cases e with
  | renameField id new => exact handles_rename_field p q id new done
  | renameMethod id new => exact handles_rename_method p q id new done
  | moveField id destination => exact handles_move_field p q id destination done
  | moveMethod id destination => exact handles_move_method p q id destination done
  | deleteField id => exact False.elim relocates
  | deleteMethod id => exact False.elim relocates
  | deleteInstructions id insns => exact False.elim relocates

end Edits

section Unique

variable (p : Program) (name : MemberName)

theorem field_key?_of_member_name (id : FieldId) (named : p.memberName? (.field id) = some name) :
    name.descriptor = none ∧ p.fieldKey? id = some (Key.field name.owner name.name) := by
  obtain ⟨f, isField, rest⟩ := Option.bind_eq_some_iff.mp named
  obtain ⟨owner, live, rfl⟩ := Option.map_eq_some_iff.mp rest
  rw [field_key_eq, isField, Option.bind_some, live]
  exact ⟨rfl, rfl⟩

theorem method_key?_of_member_name (id : MethodId) (named : p.memberName? (.method id) = some name) :
    ∃ descriptor, name.descriptor = some descriptor ∧
      p.methodKey? id = some (Key.method name.owner name.name descriptor) := by
  obtain ⟨m, isMethod, rest⟩ := Option.bind_eq_some_iff.mp named
  obtain ⟨owner, live, rfl⟩ := Option.map_eq_some_iff.mp rest
  rw [method_key_eq, isMethod, Option.bind_some, live]
  exact ⟨m.descriptor, rfl, rfl⟩

theorem member_name?_injective (indexed : p.Indexed) (target other : Target)
    (named : p.memberName? target = some name) (namedToo : p.memberName? other = some name) :
    target = other := by
  cases target with
  | «class» _ => cases named
  | field i =>
      obtain ⟨isField, key⟩ := field_key?_of_member_name p name i named
      cases other with
      | «class» _ => cases namedToo
      | field j =>
          obtain ⟨_, keyToo⟩ := field_key?_of_member_name p name j namedToo
          exact congrArg Target.field (Table.inverse_unique _ _ indexed.fields.inverse _ i j key keyToo)
      | method j =>
          obtain ⟨_, isMethod, _⟩ := method_key?_of_member_name p name j namedToo
          cases isField.symm.trans isMethod
  | method i =>
      obtain ⟨descriptor, isMethod, key⟩ := method_key?_of_member_name p name i named
      cases other with
      | «class» _ => cases namedToo
      | field j =>
          obtain ⟨isField, _⟩ := field_key?_of_member_name p name j namedToo
          cases isField.symm.trans isMethod
      | method j =>
          obtain ⟨_, isMethodToo, keyToo⟩ := method_key?_of_member_name p name j namedToo
          cases isMethod.symm.trans isMethodToo
          exact congrArg Target.method (Table.inverse_unique _ _ indexed.methods.inverse _ i j key keyToo)

end Unique

section Outcome

variable (p q : Program) (e : MemberEdit) (relabels : Relabels p q e)

include relabels

theorem denotes_subject_iff (value : Constant) (before : p.Denotes value e.subject) :
    q.Denotes value e.subject ↔ p.Idles e := by
  obtain ⟨name, isName, named⟩ := before
  have after := relabels.own name named
  constructor
  · intro ⟨name', isName', named'⟩ old isOld
    cases isName.symm.trans isName'
    cases named.symm.trans isOld
    exact Option.some.inj (after.symm.trans named')
  · intro idle
    exact ⟨name, isName, after.trans (congrArg some (idle name named))⟩

theorem denotes_other_iff (value : Constant) (target : Target) (apart : target ≠ e.subject) :
    q.Denotes value target ↔ p.Denotes value target := by
  simp only [Denotes, relabels.others target apart]

theorem denotes_none (indexed : p.Indexed) (value : Constant) (before : p.Denotes value e.subject)
    (renames : ¬p.Idles e) (target : Target) : ¬q.Denotes value target := by
  intro after
  by_cases same : target = e.subject
  · subst same
    exact renames ((denotes_subject_iff p q e relabels value before).mp after)
  · obtain ⟨name, isName, named⟩ := before
    obtain ⟨name', isName', named'⟩ := (denotes_other_iff p q e relabels value target same).mp after
    cases isName.symm.trans isName'
    exact same (member_name?_injective p name indexed _ _ named' named)

theorem keeps_handles_iff (constants : SameConstants p q) :
    p.KeepsHandles q e.subject ↔ p.Idles e ∨ ¬p.Handled e.subject := by
  constructor
  · intro keeps
    by_cases handled : p.Handled e.subject
    · obtain ⟨place, value, held, before⟩ := handled
      obtain ⟨value', heldNow, after⟩ := keeps place value held before
      rw [constants.constant_at?, held] at heldNow
      cases heldNow
      exact Or.inl ((denotes_subject_iff p q e relabels value before).mp after)
    · exact Or.inr handled
  · intro kept place value held before
    refine ⟨value, (constants.constant_at? place).trans held, ?_⟩
    rcases kept with idle | unhandled
    · exact (denotes_subject_iff p q e relabels value before).mpr idle
    · exact absurd ⟨place, value, held, before⟩ unhandled

end Outcome

-- Renaming or moving a member changes no handle. A handle for another member stands for it still; one for
-- the member itself does only if the edit gives the member the name it has, and else, where no name is
-- given twice, it stands for nothing. So the handles for the member are kept exactly if there are none or
-- its name stays.
theorem handles_left_behind [Libraries] (p q : Program) (e : MemberEdit) (relocates : e.Relocates)
    (done : p.edit e = .ok q) :
    (∀ place, q.constantAt? place = p.constantAt? place) ∧
    (∀ value target, target ≠ e.subject → (q.Denotes value target ↔ p.Denotes value target)) ∧
    (∀ value, p.Denotes value e.subject → (q.Denotes value e.subject ↔ p.Idles e)) ∧
    (p.Indexed → ∀ value, p.Denotes value e.subject → ¬p.Idles e → ∀ target, ¬q.Denotes value target) ∧
    (p.KeepsHandles q e.subject ↔ p.Idles e ∨ ¬p.Handled e.subject) := by
  obtain ⟨constants, relabels⟩ := handles_edit p q e relocates done
  refine ⟨constants.constant_at?, ?_, ?_, ?_, keeps_handles_iff p q e relabels constants⟩
  · exact fun value target apart => denotes_other_iff p q e relabels value target apart
  · exact fun value before => denotes_subject_iff p q e relabels value before
  · exact fun indexed value before renames => denotes_none p q e relabels indexed value before renames

end Program

namespace Session

open Program

-- A class with a static field and a static method. Its code loads a handle for the method, and a bootstrap
-- method of the class takes a handle for the field.
def handling : List SessionAction :=
  let header : ClassHeader := ⟨"A", some "java/lang/Object", [], none, default, 52, [],
    [⟨.methodHandle 6 "B" "link" "()V" false, [.methodHandle 2 "A" "n" "I" false]⟩]⟩
  [.openBuilder, .visit 0 (.header header), .visit 0 (.field ⟨"n", "I", none, default, none, []⟩),
    .visit 0 (.method ⟨"helper", "()V", none, default, [], []⟩),
    .visit 0 (.method ⟨"main", "()V", none, default, [], []⟩),
    .visit 0 (.instruction 18 (.constant (.methodHandle 6 "A" "helper" "()V" false))),
    .visit 0 .classEnd]

def handledHelper : Constant := .methodHandle 6 "A" "helper" "()V" false

-- The method gets another name and the handle in the code stands for nothing any more; the handle for the
-- field, which a bootstrap method takes, stands for it still.
theorem handles_left_behind_helper : (∀ action ∈ handling, action.PlainLoad) ∧
    ∃ q, (resolved {} handling).renameMethod ⟨3⟩ "other" = .ok q ∧
      q.constantAt? (.loaded ⟨⟨4⟩, ⟨5⟩⟩) = some handledHelper ∧
      (resolved {} handling).Denotes handledHelper (.method ⟨3⟩) ∧
      (∀ target, ¬q.Denotes handledHelper target) ∧
      q.Denotes (.methodHandle 2 "A" "n" "I" false) (.field ⟨2⟩) := by
  have plain : ∀ action ∈ handling, action.PlainLoad := by decide
  have bound := bound_resolved {} handling plain
  obtain ⟨places, others, _, lost, _⟩ := handles_left_behind (resolved {} handling) _
    (.renameMethod ⟨3⟩ "other") trivial rfl
  have before : (resolved {} handling).Denotes handledHelper (.method ⟨3⟩) := ⟨_, rfl, rfl⟩
  refine ⟨plain, _, rfl, (places _).trans rfl, before, ?_, ?_⟩
  · refine lost bound.indexed handledHelper before fun idle => ?_
    exact absurd (idle _ rfl) (by decide)
  · exact (others _ (.field ⟨2⟩) (by decide)).mpr ⟨_, rfl, rfl⟩

-- The handle that the code loads is not kept when the method it stands for gets another name.
theorem rename_method_stale_handle : ∃ q, (resolved {} handling).renameMethod ⟨3⟩ "other" = .ok q ∧
    ¬(resolved {} handling).KeepsHandles q (.method ⟨3⟩) ∧ q.findMethod? "A" "helper" "()V" = none := by
  refine ⟨_, rfl, fun keeps => ?_, rfl⟩
  obtain ⟨value, held, name, isName, named⟩ := keeps (.loaded ⟨⟨4⟩, ⟨5⟩⟩) handledHelper rfl ⟨_, rfl, rfl⟩
  cases held
  cases isName
  exact absurd named (by decide)

end Session

end JvmEdit
