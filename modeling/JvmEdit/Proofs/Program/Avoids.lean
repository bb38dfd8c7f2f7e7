import JvmEdit.Proofs.Data.Table
import JvmEdit.Proofs.Descriptor.Rename
import JvmEdit.Program.Basic
set_option autoImplicit false

namespace JvmEdit

section Avoids

variable (name : String)

namespace Constant

def Avoids : Constant → Prop
  | .classRef text => ¬ClassName.Names text name
  | .methodType descriptor => ¬Signature.Names descriptor name
  | .methodHandle _ owner _ descriptor _ =>
      ¬ClassName.Names owner name ∧ ¬Signature.Names descriptor name
  | .dynamic _ descriptor _ => ¬Signature.Names descriptor name
  | _ => True

instance Avoids.decidable : (value : Constant) → Decidable (value.Avoids name)
  | .classRef _ | .methodType _ | .dynamic .. => inferInstanceAs (Decidable (¬_))
  | .methodHandle .. => inferInstanceAs (Decidable (¬_ ∧ ¬_))
  | .int _ | .float _ | .long _ | .double _ | .string _ => inferInstanceAs (Decidable True)

end Constant

namespace Operand

def Avoids : Operand → Prop
  | .field u => ¬ClassName.Names u.owner name ∧ ¬Signature.Names u.descriptor name
  | .call c => ¬ClassName.Names c.owner name ∧ ¬Signature.Names c.descriptor name
  | .dynamicCall c => ¬Signature.Names c.descriptor name
  | .type text => ¬ClassName.Names text name
  | .multiArray text _ => ¬ClassName.Names text name
  | .constant value => value.Avoids name
  | _ => True

instance Avoids.decidable : (o : Operand) → Decidable (o.Avoids name)
  | .field _ | .call _ => inferInstanceAs (Decidable (¬_ ∧ ¬_))
  | .dynamicCall _ | .type _ | .multiArray .. => inferInstanceAs (Decidable (¬_))
  | .constant value => Constant.Avoids.decidable name value
  | .label _ | .simple | .int _ | .var _ | .increment .. | .jump _ | .switch .. | .newArray _ =>
      inferInstanceAs (Decidable True)

end Operand

def BootstrapMethod.Avoids (b : BootstrapMethod) : Prop :=
  b.handle.Avoids name ∧ ∀ value ∈ b.arguments, value.Avoids name

def Annotation.Avoids (a : Annotation) : Prop := ¬Signature.Names a.descriptor name

def LocalVariable.Avoids (v : LocalVariable) : Prop :=
  ¬Signature.Names v.descriptor name ∧ ∀ text ∈ v.signature, ¬Signature.Names text name

-- The class's own name is another matter.
@[mk_iff]
structure Class.Avoids (c : Class) : Prop where
  superName : ∀ text ∈ c.superName, ¬ClassName.Names text name
  interfaces : ∀ text ∈ c.interfaces, ¬ClassName.Names text name
  signature : ∀ text ∈ c.signature, ¬Signature.Names text name
  annotations : ∀ a ∈ c.annotations, a.Avoids name
  bootstrapMethods : ∀ b ∈ c.bootstrapMethods, b.Avoids name

@[mk_iff]
structure Field.Avoids (f : Field) : Prop where
  descriptor : ¬Signature.Names f.descriptor name
  signature : ∀ text ∈ f.signature, ¬Signature.Names text name
  value : ∀ constant ∈ f.value, constant.Avoids name
  annotations : ∀ a ∈ f.annotations, a.Avoids name

@[mk_iff]
structure Method.Avoids (m : Method) : Prop where
  descriptor : ¬Signature.Names m.descriptor name
  signature : ∀ text ∈ m.signature, ¬Signature.Names text name
  exceptions : ∀ text ∈ m.exceptions, ¬ClassName.Names text name
  catchTypes : ∀ range ∈ m.tryRanges, ∀ text ∈ range.catchType, ¬ClassName.Names text name
  locals : ∀ v ∈ m.locals, v.Avoids name
  code : ∀ i ∈ m.code.toList, i.operand.Avoids name
  annotations : ∀ a ∈ m.annotations, a.Avoids name

@[mk_iff]
structure Program.Avoids (p : Program) : Prop where
  classes : ∀ c ∈ p.classes.values, c.Avoids name
  fields : ∀ f ∈ p.fields.values, f.Avoids name
  methods : ∀ m ∈ p.methods.values, m.Avoids name

instance BootstrapMethod.Avoids.decidable (b : BootstrapMethod) : Decidable (b.Avoids name) :=
  inferInstanceAs (Decidable (_ ∧ _))

instance Annotation.Avoids.decidable (a : Annotation) : Decidable (a.Avoids name) :=
  inferInstanceAs (Decidable (¬_))

instance LocalVariable.Avoids.decidable (v : LocalVariable) : Decidable (v.Avoids name) :=
  inferInstanceAs (Decidable (_ ∧ _))

instance Class.Avoids.decidable (c : Class) : Decidable (c.Avoids name) :=
  decidable_of_iff _ (Class.avoids_iff name c).symm

instance Field.Avoids.decidable (f : Field) : Decidable (f.Avoids name) :=
  decidable_of_iff _ (Field.avoids_iff name f).symm

instance Method.Avoids.decidable (m : Method) : Decidable (m.Avoids name) :=
  decidable_of_iff _ (Method.avoids_iff name m).symm

instance Program.Avoids.decidable (p : Program) : Decidable (p.Avoids name) :=
  decidable_of_iff _ (Program.avoids_iff name p).symm

end Avoids

theorem map_back {α : Type} (f g : α → α) (xs : List α) (back : ∀ x ∈ xs, g (f x) = x) :
    (xs.map f).map g = xs := by
  rw [List.map_map]
  exact (List.map_congr_left back).trans (List.map_id xs)

theorem option_map_back {α : Type} (f g : α → α) (x : Option α) (back : ∀ y ∈ x, g (f y) = y) :
    (x.map f).map g = x := by
  cases x with
  | none => rfl
  | some y => exact congrArg some (back y rfl)

namespace Renaming

variable (r : Renaming) (legal : InternalName r.new)

include legal

theorem constant_back (value : Constant) (avoids : value.Avoids r.new) :
    r.back.constant (r.constant value) = value := by
  cases value with
  | classRef text => exact congrArg Constant.classRef (r.internal_back legal text avoids)
  | methodType text => exact congrArg Constant.methodType (r.descriptor_back legal text avoids)
  | methodHandle kind owner name text isInterface =>
      simp only [constant]
      rw [r.internal_back legal owner avoids.1, r.descriptor_back legal text avoids.2]
  | dynamic name text bootstrap =>
      simp only [constant]
      rw [r.descriptor_back legal text avoids]
  | _ => rfl

theorem operand_back (o : Operand) (avoids : o.Avoids r.new) : r.back.operand (r.operand o) = o := by
  cases o with
  | field u =>
      simp only [operand]
      rw [r.internal_back legal u.owner avoids.1, r.descriptor_back legal u.descriptor avoids.2]
  | call c =>
      simp only [operand]
      rw [r.internal_back legal c.owner avoids.1, r.descriptor_back legal c.descriptor avoids.2]
  | dynamicCall c =>
      simp only [operand]
      rw [r.descriptor_back legal c.descriptor avoids]
  | type text => exact congrArg Operand.type (r.internal_back legal text avoids)
  | multiArray text dimensions =>
      exact congrArg (Operand.multiArray · dimensions) (r.internal_back legal text avoids)
  | constant value => exact congrArg Operand.constant (r.constant_back legal value avoids)
  | _ => rfl

theorem annotation_back (a : Annotation) (avoids : a.Avoids r.new) :
    r.back.annotationText (r.annotationText a) = a := by
  simp only [annotationText]
  rw [r.descriptor_back legal a.descriptor avoids]

theorem bootstrap_back (b : BootstrapMethod) (avoids : b.Avoids r.new) :
    r.back.bootstrap (r.bootstrap b) = b := by
  simp only [bootstrap]
  rw [r.constant_back legal b.handle avoids.1, map_back _ _ b.arguments fun value member =>
    r.constant_back legal value (avoids.2 value member)]

theorem signature_back (signature : Option String)
    (avoids : ∀ text ∈ signature, ¬Signature.Names text r.new) :
    (signature.map r.descriptor).map r.back.descriptor = signature :=
  option_map_back _ _ signature fun text member => r.descriptor_back legal text (avoids text member)

theorem annotations_back (annotations : List Annotation) (avoids : ∀ a ∈ annotations, a.Avoids r.new) :
    (annotations.map r.annotationText).map r.back.annotationText = annotations :=
  map_back _ _ annotations fun a member => r.annotation_back legal a (avoids a member)

theorem class_header_back (c : Class) (avoids : c.Avoids r.new) :
    r.back.classHeader (r.classHeader c) = c := by
  have superName := option_map_back r.internal r.back.internal c.superName fun text member =>
    r.internal_back legal text (avoids.superName text member)
  have interfaces := map_back r.internal r.back.internal c.interfaces fun text member =>
    r.internal_back legal text (avoids.interfaces text member)
  have bootstrapMethods := map_back r.bootstrap r.back.bootstrap c.bootstrapMethods fun b member =>
    r.bootstrap_back legal b (avoids.bootstrapMethods b member)
  simp only [classHeader, superName, interfaces, bootstrapMethods,
    r.signature_back legal c.signature avoids.signature,
    r.annotations_back legal c.annotations avoids.annotations]

theorem field_text_back (f : Field) (avoids : f.Avoids r.new) :
    r.back.fieldText (r.fieldText f) = f := by
  have value := option_map_back r.constant r.back.constant f.value fun constant member =>
    r.constant_back legal constant (avoids.value constant member)
  simp only [fieldText, value, r.descriptor_back legal f.descriptor avoids.descriptor,
    r.signature_back legal f.signature avoids.signature,
    r.annotations_back legal f.annotations avoids.annotations]

theorem method_text_back (m : Method) (avoids : m.Avoids r.new) :
    r.back.methodText (r.methodText m) = m := by
  have exceptions := map_back r.internal r.back.internal m.exceptions fun text member =>
    r.internal_back legal text (avoids.exceptions text member)
  have tryRanges := map_back r.tryRange r.back.tryRange m.tryRanges fun range member => by
    simp only [tryRange]
    rw [option_map_back r.internal r.back.internal range.catchType fun text caught =>
      r.internal_back legal text (avoids.catchTypes range member text caught)]
  have locals := map_back r.localVariable r.back.localVariable m.locals fun v member => by
    simp only [localVariable]
    rw [r.descriptor_back legal v.descriptor (avoids.locals v member).1,
      r.signature_back legal v.signature (avoids.locals v member).2]
  have code : (m.code.map r.instruction).map r.back.instruction = m.code :=
    congrArg Stream.mk (map_back r.instruction r.back.instruction m.code.toList fun i member => by
      simp only [instruction]
      rw [r.operand_back legal i.operand (avoids.code i member)])
  simp only [methodText, exceptions, tryRanges, locals, code,
    r.descriptor_back legal m.descriptor avoids.descriptor,
    r.signature_back legal m.signature avoids.signature,
    r.annotations_back legal m.annotations avoids.annotations]

end Renaming

end JvmEdit
