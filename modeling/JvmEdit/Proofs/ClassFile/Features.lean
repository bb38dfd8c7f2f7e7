import JvmEdit.Proofs.ClassFile.Structure
set_option autoImplicit false

namespace JvmEdit

-- The first version that has entries of that kind.
def PoolEntry.since : PoolEntry → UInt16
  | .methodHandle .. | .methodType _ | .invokeDynamic .. => 51
  | .module _ | .package _ => 53
  | .dynamic .. => 55
  | _ => 45

def Constant.since : Constant → UInt16
  | .methodHandle .. | .methodType _ => 51
  | .dynamic .. => 55
  | _ => 45

-- The version that the entry of an operand needs.
def Operand.since : Operand → UInt16
  | .constant value => value.since
  | .dynamicCall _ => 51
  | _ => 45

-- No entry is newer than that.
def PoolBuilder.Within (b : PoolBuilder) (version : UInt16) : Prop :=
  ∀ entry ∈ b.entries, entry.since ≤ version

-- A writer enters what needs these versions, and nothing that needs others but the oldest.
structure Needs {α : Type} (e : Encoder α) (versions : List UInt16) : Prop where
  growing : Growing e
  within : ∀ b b' a version, b.Valid → e b = .ok (a, b') → 45 ≤ version →
    (b'.Within version ↔ b.Within version ∧ ∀ needed ∈ versions, needed ≤ version)

namespace Needs

variable {α β : Type}

theorem pure (value : α) : Needs (Pure.pure value) [] where
  growing := .pure value
  within := by
    intro b b' a version _ done _
    cases done
    exact ⟨fun within => ⟨within, List.forall_mem_nil _⟩, And.left⟩

theorem fail (e : EncodeError) : Needs (throw e : Encoder α) [] where
  growing := .fail e
  within := by
    intro b b' a version _ done _
    cases done

theorem lift (result : Except EncodeError α) : Needs (liftM result : Encoder α) [] where
  growing := .lift result
  within := by
    intro b b' a version _ done _
    rw [(encoder_lift result b b' a done).2]
    exact ⟨fun within => ⟨within, List.forall_mem_nil _⟩, And.left⟩

theorem bind {x : Encoder α} {f : α → Encoder β} {versions more : List UInt16}
    (first : Needs x versions) (later : ∀ a, Needs (f a) more) : Needs (x >>= f) (versions ++ more) where
  growing := first.growing.bind fun a => (later a).growing
  within := by
    intro b b' r version valid done old
    obtain ⟨a, mid, ran, rest⟩ := state_t_bind x f b b' r done
    have validMid := (first.growing b mid a ran).valid valid
    rw [(later a).within mid b' r version validMid rest old, first.within b mid a version valid ran old,
      List.forall_mem_append, and_assoc]

theorem plain {x : Encoder α} {f : α → Encoder β} {versions : List UInt16} (first : Needs x versions)
    (later : ∀ a, Needs (f a) []) : Needs (x >>= f) versions := by
  have both := first.bind later
  rwa [List.append_nil] at both

theorem old {e : Encoder α} (needs : Needs e [45]) : Needs e [] where
  growing := needs.growing
  within := by
    intro b b' a version valid done old
    rw [needs.within b b' a version valid done old, List.forall_mem_singleton]
    exact ⟨fun both => ⟨both.1, List.forall_mem_nil _⟩, fun both => ⟨both.1, old⟩⟩

theorem any {e : Encoder α} (needs : Needs e []) : Needs e [45] where
  growing := needs.growing
  within := by
    intro b b' a version valid done old
    rw [needs.within b b' a version valid done old, List.forall_mem_singleton]
    exact ⟨fun both => ⟨both.1, old⟩, fun both => ⟨both.1, List.forall_mem_nil _⟩⟩

theorem map_m {f : α → Encoder β} {versions : α → List UInt16} (items : List α)
    (each : ∀ a, Needs (f a) (versions a)) : Needs (items.mapM f) (items.flatMap versions) := by
  induction items with
  | nil => exact .pure []
  | cons a items ih =>
      rw [List.mapM_cons, List.flatMap_cons]
      exact (each a).bind fun r => ih.plain fun rs => .pure (r :: rs)

theorem map_m_plain {f : α → Encoder β} (items : List α) (each : ∀ a, Needs (f a) []) :
    Needs (items.mapM f) [] := by
  have all := map_m items each
  rwa [List.flatMap_eq_nil_iff.mpr fun _ _ => rfl] at all

theorem add (item : PoolItem) (writable : item.Writable) :
    Needs (PoolBuilder.add item) [item.entry.since] where
  growing := .add item writable
  within := by
    intro b b' index version valid added old
    rw [List.forall_mem_singleton]
    rcases PoolBuilder.add_ok b b' item index added with ⟨rfl, found⟩ | ⟨rfl, _, _⟩
    · have held := List.mem_of_getElem? (valid.found item index found)
      exact ⟨fun within => ⟨within, within _ held⟩, And.left⟩
    · have slots : (∀ entry ∈ item.slots, entry.since ≤ version) ↔ item.entry.since ≤ version := by
        rw [PoolItem.slots]
        cases item.entry.isWide with
        | true =>
            rw [if_pos rfl, List.forall_mem_cons, List.forall_mem_singleton]
            exact and_iff_left old
        | false => rw [if_neg Bool.false_ne_true, List.forall_mem_singleton]
      rw [PoolBuilder.Within, PoolBuilder.entries_push, List.forall_mem_append, slots]
      rfl

end Needs

namespace PoolBuilder

theorem needs_utf8 (text : String) : Needs (utf8 text) [] := by
  unfold utf8
  dsimp only
  split
  · exact .fail _
  · exact (Needs.add _ (by simp only [PoolItem.Writable]; omega)).old

theorem needs_class_name (name : String) : Needs (className name) [] :=
  (needs_utf8 name).plain fun i => (Needs.add (.classRef i) trivial).old

theorem needs_name_and_type (name descriptor : String) : Needs (nameAndType name descriptor) [] :=
  (needs_utf8 name).plain fun i => (needs_utf8 descriptor).plain fun j =>
    (Needs.add (.nameAndType i j) trivial).old

theorem needs_field_ref (owner name descriptor : String) : Needs (fieldRef owner name descriptor) [] :=
  (needs_class_name owner).plain fun i => (needs_name_and_type name descriptor).plain fun j =>
    (Needs.add (.fieldRef i j) trivial).old

theorem needs_method_ref (owner name descriptor : String) (isInterface : Bool) :
    Needs (methodRef owner name descriptor isInterface) [] :=
  (needs_class_name owner).plain fun i => (needs_name_and_type name descriptor).plain fun j => by
    cases isInterface with
    | true => exact (Needs.add (.interfaceMethodRef i j) trivial).old
    | false => exact (Needs.add (.methodRef i j) trivial).old

theorem needs_dynamic_call (bootstrap : UInt16) (name descriptor : String) :
    Needs (dynamicCall bootstrap name descriptor) [51] :=
  (needs_name_and_type name descriptor).bind fun i => .add (.invokeDynamic bootstrap i) trivial

theorem needs_handle_member (kind : UInt8) (owner name descriptor : String) (isInterface : Bool) :
    Needs (handleMember kind owner name descriptor isInterface) [] := by
  simp only [handleMember]
  split
  · exact needs_field_ref owner name descriptor
  · exact needs_method_ref owner name descriptor isInterface

theorem needs_constant (value : Constant) : Needs (constant value) [value.since] := by
  cases value with
  | int value => exact .add (.integer value) trivial
  | float bits => exact .add (.float bits) trivial
  | long value => exact .add (.long value) trivial
  | double bits => exact .add (.double bits) trivial
  | string text => exact (needs_utf8 text).bind fun i => .add (.string i) trivial
  | classRef name => exact (needs_class_name name).any
  | methodType descriptor => exact (needs_utf8 descriptor).bind fun i => .add (.methodType i) trivial
  | methodHandle kind owner name descriptor isInterface =>
      rw [constant_method_handle]
      exact (needs_handle_member kind owner name descriptor isInterface).bind fun i =>
        .add (.methodHandle kind i) trivial
  | dynamic name descriptor bootstrap =>
      exact (needs_name_and_type name descriptor).bind fun i => .add (.dynamic bootstrap i) trivial

end PoolBuilder

namespace ClassFile

section Attributes

theorem needs_index {request : Encoder UInt16} {versions : List UInt16} (needs : Needs request versions) :
    Needs (indexBytes request) versions :=
  needs.plain fun index => .pure (Bytes.u16 index)

theorem needs_text (text : String) : Needs (indexBytes (PoolBuilder.utf8 text)) [] :=
  needs_index (PoolBuilder.needs_utf8 text)

theorem needs_name (name : String) : Needs (indexBytes (PoolBuilder.className name)) [] :=
  needs_index (PoolBuilder.needs_class_name name)

theorem needs_catch_index (name : Option String) : Needs (catchIndex name) [] := by
  cases name with
  | none => exact .pure 0
  | some name => exact PoolBuilder.needs_class_name name

theorem needs_list {α : Type} {write : α → Encoder (List UInt8)} {versions : α → List UInt16}
    (items : List α) (each : ∀ a, Needs (write a) (versions a)) :
    Needs (listBytes items write) (items.flatMap versions) :=
  (Needs.map_m items each).plain fun _ => .pure _

theorem needs_plain_list {α : Type} {write : α → Encoder (List UInt8)} (items : List α)
    (each : ∀ a, Needs (write a) []) : Needs (listBytes items write) [] :=
  (Needs.map_m_plain items each).plain fun _ => .pure _

theorem needs_named (name : String) (body : List UInt8) : Needs (named name body) [] :=
  (PoolBuilder.needs_utf8 name).plain fun _ => .pure _

theorem needs_single {versions : List UInt16} {body : Encoder (List UInt8)} (name : String)
    (needs : Needs body versions) : Needs (single name body) versions :=
  needs.plain fun _ => (needs_named name _).plain fun _ => .pure _

theorem needs_signature (signature : Option String) : Needs (signatureAttribute signature) [] := by
  cases signature with
  | none => exact .pure []
  | some signature => exact needs_single "Signature" (needs_text signature)

theorem needs_tagged {request : Encoder UInt16} (kind : Char) (needs : Needs request []) :
    Needs (do let index ← indexBytes request; return tag kind :: index) [] :=
  (needs_index needs).plain fun _ => .pure _

theorem needs_element (value : AnnotationValue) : Needs (elementBytes value) [] := by
  cases value with
  | int value =>
      rw [elementBytes]
      split
      · exact needs_tagged 'I' (PoolBuilder.needs_constant (.int _)).old
      · exact needs_tagged 'J' (PoolBuilder.needs_constant (.long _)).old
  | bool value => exact needs_tagged 'Z' (PoolBuilder.needs_constant (.int _)).old
  | text value => exact needs_tagged 's' (PoolBuilder.needs_utf8 value)

theorem needs_annotation (a : Annotation) : Needs (annotationBytes a) [] :=
  (needs_text a.descriptor).plain fun _ => (needs_plain_list a.values fun pair =>
    (needs_text pair.1).plain fun _ => (needs_element pair.2).plain fun _ => .pure _).plain
      fun _ => .pure _

theorem needs_annotations (annotations : List Annotation) :
    Needs (annotationAttribute annotations) [] := by
  rw [annotation_attribute_eq]
  split
  · exact .pure []
  · exact needs_single _ (needs_plain_list annotations needs_annotation)

end Attributes

section Bodies

open Assembler (Context Layout)

theorem needs_operand_index (operand : Operand) : Needs (Assembler.operandIndex operand) [operand.since] := by
  cases operand with
  | constant value => exact PoolBuilder.needs_constant value
  | field use => exact (PoolBuilder.needs_field_ref _ _ _).any
  | call call => exact (PoolBuilder.needs_method_ref _ _ _ _).any
  | dynamicCall call => exact PoolBuilder.needs_dynamic_call _ _ _
  | type name => exact (PoolBuilder.needs_class_name name).any
  | multiArray name dimensions => exact (PoolBuilder.needs_class_name name).any
  | _ => exact (Needs.pure 0).any

theorem needs_lines_onto (reversed : List Assembler.Line) (code : List Instruction) :
    Needs (Assembler.linesOnto reversed code) (code.map (·.operand.since)) := by
  induction code generalizing reversed with
  | nil => exact .pure _
  | cons i code ih => exact (needs_operand_index i.operand).bind fun _ => ih _

theorem needs_offset16 (c : Context) (layout : Layout) (label : LabelId) :
    Needs (offset16 c layout label) [] :=
  (Needs.lift _).plain fun _ => .pure _

theorem needs_range (c : Context) (layout : Layout) (range : TryRange) :
    Needs (rangeBytes c layout range) [] := by
  rw [range_bytes_eq]
  refine (needs_offset16 c layout _).plain fun start => (needs_offset16 c layout _).plain fun stop => ?_
  split
  · exact .pure []
  · exact (needs_catch_index _).plain fun _ => (needs_offset16 c layout _).plain fun _ => .pure _

theorem needs_local (c : Context) (layout : Layout) (v : LocalVariable) :
    Needs (localBytes c layout v) [] := by
  simp only [localBytes]
  refine (needs_offset16 c layout _).plain fun start => (needs_offset16 c layout _).plain fun stop => ?_
  refine (needs_text _).plain fun name => (needs_text _).plain fun descriptor => ?_
  cases v.signature with
  | none => exact .pure _
  | some signature => exact (needs_text _).plain fun _ => (needs_text _).plain fun _ => .pure _

theorem needs_locals (c : Context) (layout : Layout) (locals : List LocalVariable) :
    Needs (localAttributes c layout locals) [] := by
  cases none : locals.isEmpty with
  | true =>
      rw [List.isEmpty_iff] at none
      subst none
      exact .pure []
  | false =>
      cases excess : uncountable locals with
      | none =>
          rw [local_attributes_eq c layout locals none excess]
          refine (Needs.map_m_plain locals (needs_local c layout)).plain fun rows =>
            (needs_named _ _).plain fun table => ?_
          split
          · exact .pure _
          · exact (needs_named _ _).plain fun _ => .pure _
      | some found =>
          rw [local_attributes_uncountable c layout locals found.1 found.2 excess]
          exact (Needs.map_m_plain _ (needs_local c layout)).plain fun _ =>
            (needs_local c layout _).plain fun _ => .fail _

-- The versions that the entries for a body need.
def codeVersions (m : Method) : List UInt16 := m.code.toList.map (·.operand.since)

theorem needs_code [Libraries] (m : Method) (qualified : String) : Needs (codeBytes m qualified)
    (codeVersions m) :=
  (needs_lines_onto [] m.code.toList).plain fun _ => (Needs.lift _).plain fun layout =>
    (Needs.lift _).plain fun _ => (Needs.map_m_plain m.tryRanges (needs_range _ layout)).plain fun _ =>
      (needs_locals _ layout m.locals).plain fun _ => .pure _

theorem needs_code_attribute [Libraries] (className : String) (m : Method) :
    Needs (codeAttribute className m) (codeVersions m) := by
  unfold codeAttribute
  cases empty : m.code.isEmpty with
  | true =>
      have none : m.code.toList = [] := List.isEmpty_iff.mp empty
      rw [codeVersions, none]
      exact .pure []
  | false => exact needs_single "Code" (needs_code m _)

theorem needs_exceptions (m : Method) : Needs (exceptionsAttribute m) [] := by
  unfold exceptionsAttribute
  split
  · exact .pure []
  · exact needs_single "Exceptions" (needs_plain_list m.exceptions needs_name)

theorem needs_method [Libraries] (className : String) (m : Method) :
    Needs (methodBytes className m) (codeVersions m) := by
  rw [method_bytes_eq]
  refine (needs_text _).bind fun _ => (needs_text _).bind fun _ => ?_
  exact (needs_code_attribute className m).plain fun _ => (needs_exceptions m).plain fun _ =>
    (needs_signature _).plain fun _ => (needs_annotations _).plain fun _ => .pure _

end Bodies

section Classes

def valueVersions (f : Field) : List UInt16 := f.value.toList.map Constant.since

def bootstrapVersions (b : BootstrapMethod) : List UInt16 := (b.handle :: b.arguments).map Constant.since

theorem needs_value (value : Option Constant) :
    Needs (valueAttribute value) (value.toList.map Constant.since) := by
  cases value with
  | none => exact .pure []
  | some value => exact needs_single "ConstantValue" (needs_index (PoolBuilder.needs_constant value))

theorem needs_field (f : Field) : Needs (fieldBytes f) (valueVersions f) := by
  rw [field_bytes_eq]
  refine (needs_text _).bind fun _ => (needs_text _).bind fun _ => ?_
  exact (needs_value f.value).plain fun _ => (needs_signature _).plain fun _ =>
    (needs_annotations _).plain fun _ => .pure _

theorem needs_bootstrap (b : BootstrapMethod) : Needs (bootstrapBytes b) (bootstrapVersions b) := by
  have arguments := needs_list b.arguments fun value => needs_index (PoolBuilder.needs_constant value)
  rw [← List.map_eq_flatMap] at arguments
  exact (needs_index (PoolBuilder.needs_constant b.handle)).bind fun _ => arguments.plain fun _ => .pure _

theorem needs_bootstraps (methods : List BootstrapMethod) :
    Needs (bootstrapAttribute methods) (methods.flatMap bootstrapVersions) := by
  rw [bootstrap_attribute_eq]
  cases methods with
  | nil => exact .pure []
  | cons b methods => exact needs_single "BootstrapMethods" (needs_list (b :: methods) needs_bootstrap)

theorem needs_body [Libraries] (c : Class) (fields : List Field) (methods : List Method) :
    Needs (bodyBytes c fields methods) (fields.flatMap valueVersions ++
      (methods.flatMap codeVersions ++ c.bootstrapMethods.flatMap bootstrapVersions)) := by
  rw [body_bytes_eq]
  refine (needs_name _).bind fun _ => (needs_index (needs_catch_index _)).bind fun _ => ?_
  refine (needs_plain_list _ needs_name).bind fun _ => (needs_list fields needs_field).bind fun _ => ?_
  refine (needs_list methods (needs_method c.name)).bind fun _ => ?_
  refine (needs_signature _).bind fun _ => (needs_annotations _).bind fun _ => ?_
  exact (needs_bootstraps _).plain fun _ => .pure _

end Classes

end ClassFile

end JvmEdit
