import JvmEdit.Proofs.Descriptor.Recast
import Mathlib.Algebra.GroupWithZero.Nat
set_option autoImplicit false

namespace JvmEdit

namespace Descriptor

def Plain (c : Char) : Prop := c ≠ '.' ∧ c ≠ ';' ∧ c ≠ '['

instance Plain.decidable (c : Char) : Decidable (Plain c) := inferInstanceAs (Decidable (_ ∧ _))

def IsSegment (segment : List Char) : Prop := segment ≠ [] ∧ ∀ c ∈ segment, Plain c

instance IsSegment.decidable (segment : List Char) : Decidable (IsSegment segment) :=
  @instDecidableAnd _ _ inferInstance (List.decidableBAll _ segment)

-- A class name in internal form: segments with slashes between them.
def IsClassName (name : List Char) : Prop := ∀ segment ∈ name.splitOn '/', IsSegment segment

instance IsClassName.decidable (name : List Char) : Decidable (IsClassName name) :=
  List.decidableBAll _ (name.splitOn '/')

-- What may follow a character of a segment.
def Continues (text : List Char) : Prop := IsClassName ('L' :: text)

section ClassNames

theorem split_on_slash (text : List Char) : ('/' :: text).splitOn '/' = [] :: text.splitOn '/' := by
  simp [List.splitOn, List.splitOnP_cons_eq_if_modifyHead]

theorem split_on_cons (c : Char) (text : List Char) (inside : c ≠ '/') :
    (c :: text).splitOn '/' = (text.splitOn '/').modifyHead (c :: ·) := by
  simp [List.splitOn, List.splitOnP_cons_eq_if_modifyHead, inside]

theorem is_class_name_nil : ¬IsClassName [] := fun isName => (isName [] (by simp)).1 rfl

theorem is_class_name_slash (text : List Char) : ¬IsClassName ('/' :: text) := by
  intro isName
  rw [IsClassName, split_on_slash, List.forall_mem_cons] at isName
  exact isName.1.1 rfl

theorem is_class_name_cons (c : Char) (text : List Char) (inside : c ≠ '/') :
    IsClassName (c :: text) ↔ Plain c ∧ Continues text := by
  have letter : Plain 'L' := by decide
  rw [Continues, IsClassName, IsClassName, split_on_cons c text inside, split_on_cons 'L' text (by decide)]
  cases parts : text.splitOn '/' with
  | nil => exact absurd parts (List.splitOnP_ne_nil _ text)
  | cons segment segments => simp [IsSegment, letter, and_assoc]

theorem continues_slash (text : List Char) : Continues ('/' :: text) ↔ IsClassName text := by
  have letter : IsSegment ['L'] := by decide
  rw [Continues, IsClassName, split_on_cons 'L' _ (by decide), split_on_slash, List.modifyHead_cons,
    List.forall_mem_cons]
  exact ⟨fun rest => rest.2, fun isName => ⟨letter, isName⟩⟩

theorem continues_cons (c : Char) (text : List Char) (inside : c ≠ '/') :
    Continues (c :: text) ↔ Plain c ∧ Continues text := by
  have letter : Plain 'L' := by decide
  rw [Continues, Continues, IsClassName, IsClassName, split_on_cons 'L' _ (by decide),
    split_on_cons c text inside, split_on_cons 'L' text (by decide)]
  cases parts : text.splitOn '/' with
  | nil => exact absurd parts (List.splitOnP_ne_nil _ text)
  | cons segment segments => simp [IsSegment, letter, and_assoc]

theorem continues_append (name text : List Char) :
    (IsClassName name → (IsClassName (name ++ text) ↔ Continues text)) ∧
      (Continues name → (Continues (name ++ text) ↔ Continues text)) := by
  induction name with
  | nil => exact ⟨fun isName => absurd isName is_class_name_nil, fun _ => Iff.rfl⟩
  | cons c name ih =>
      by_cases slash : c = '/'
      · subst slash
        refine ⟨fun isName => absurd isName (is_class_name_slash name), fun rest => ?_⟩
        rw [List.cons_append, continues_slash]
        exact ih.1 ((continues_slash name).mp rest)
      · constructor
        · intro isName
          obtain ⟨plain, rest⟩ := (is_class_name_cons c name slash).mp isName
          rw [List.cons_append, is_class_name_cons c _ slash, ih.2 rest]
          exact and_iff_right plain
        · intro isName
          obtain ⟨plain, rest⟩ := (continues_cons c name slash).mp isName
          rw [List.cons_append, continues_cons c _ slash, ih.2 rest]
          exact and_iff_right plain

theorem continues_of_is_class_name {name : List Char} (isName : IsClassName name) : Continues name := by
  cases name with
  | nil => exact absurd isName is_class_name_nil
  | cons c name =>
      by_cases slash : c = '/'
      · exact absurd (slash ▸ isName) (is_class_name_slash name)
      · rw [continues_cons c name slash, ← is_class_name_cons c name slash]
        exact isName

theorem plain_of_continues (text : List Char) (rest : Continues text) :
    ∀ c ∈ text, c = '/' ∨ Plain c := by
  induction text with
  | nil => simp
  | cons c text ih =>
      rw [List.forall_mem_cons]
      by_cases slash : c = '/'
      · subst slash
        have isName := (continues_slash text).mp rest
        exact ⟨Or.inl rfl, ih (continues_of_is_class_name isName)⟩
      · obtain ⟨plain, later⟩ := (continues_cons c text slash).mp rest
        exact ⟨Or.inr plain, ih later⟩

theorem IsClassName.no_semicolon {name : List Char} (isName : IsClassName name) : ';' ∉ name := by
  intro member
  rcases plain_of_continues name (continues_of_is_class_name isName) ';' member with slash | plain
  · exact absurd slash (by decide)
  · exact plain.2.1 rfl

theorem is_class_name_recast {old new text text' : List Char} (legalOld : IsClassName old)
    (legalNew : IsClassName new) (recast : Signature.Recast old new text text') :
    (IsClassName text → IsClassName text') ∧ (Continues text → Continues text') := by
  induction recast with
  | nil => exact ⟨id, id⟩
  | @cons c text text' _ ih =>
      by_cases slash : c = '/'
      · subst slash
        refine ⟨fun isName => absurd isName (is_class_name_slash text), fun rest => ?_⟩
        rw [continues_slash] at rest ⊢
        exact ih.1 rest
      · rw [is_class_name_cons c text slash, is_class_name_cons c text' slash,
          continues_cons c text slash, continues_cons c text' slash]
        exact ⟨fun both => ⟨both.1, ih.2 both.2⟩, fun both => ⟨both.1, ih.2 both.2⟩⟩
  | @name text text' _ ih =>
      have inside : Continues (old ++ text) → Continues (new ++ text') := by
        rw [(continues_append old text).2 (continues_of_is_class_name legalOld),
          (continues_append new text').2 (continues_of_is_class_name legalNew)]
        exact ih.2
      have letter : 'L' ≠ '/' := by decide
      rw [is_class_name_cons _ _ letter, is_class_name_cons _ _ letter, continues_cons _ _ letter,
        continues_cons _ _ letter]
      exact ⟨fun both => ⟨both.1, inside both.2⟩, fun both => ⟨both.1, inside both.2⟩⟩

theorem is_class_name_recast_object {old new name name' : List Char} (legalOld : IsClassName old)
    (legalNew : IsClassName new) (recast : Signature.Recast old new ('L' :: name) ('L' :: name'))
    (isName : IsClassName name) : IsClassName name' := by
  cases recast with
  | cons _ recast => exact (is_class_name_recast legalOld legalNew recast).1 isName
  | @name text text' recast =>
      rw [(continues_append old text).1 legalOld] at isName
      rw [(continues_append new text').1 legalNew]
      exact (is_class_name_recast legalOld legalNew recast).2 isName

end ClassNames

inductive FieldType
  | base (c : Char)
  | object (name : List Char)
  | array (element : FieldType)
  deriving DecidableEq, Repr

namespace FieldType

def text : FieldType → List Char
  | base c => [c]
  | object name => 'L' :: (name ++ [';'])
  | array element => '[' :: element.text

def Legal : FieldType → Prop
  | base c => c ∈ "BCDFIJSZ".toList
  | object name => IsClassName name
  | array element => element.Legal

def value : FieldType → ValueType
  | base c => if c = 'J' then .long else if c = 'D' then .double else .other
  | object _ | array _ => .other

def dimensions : FieldType → Nat
  | base _ | object _ => 0
  | array element => element.dimensions + 1

-- What is left of a type when names are not looked at.
def shape : FieldType → FieldType
  | base c => base c
  | object _ => object []
  | array element => array element.shape

end FieldType

-- A method without a result returns `void`.
structure MethodType where
  parameters : List FieldType
  result : Option FieldType
  deriving DecidableEq, Repr

namespace MethodType

def resultText : Option FieldType → List Char
  | none => ['V']
  | some type => type.text

def text (t : MethodType) : List Char :=
  '(' :: (t.parameters.flatMap FieldType.text ++ ')' :: resultText t.result)

structure Legal (t : MethodType) : Prop where
  parameters : ∀ type ∈ t.parameters, type.Legal
  result : ∀ type ∈ t.result, type.Legal

-- The most dimensions that a type in the descriptor has.
def dimensions (t : MethodType) : Nat :=
  ((t.parameters ++ t.result.toList).map FieldType.dimensions).foldl max 0

def values (t : MethodType) : List ValueType × ValueType :=
  (t.parameters.map FieldType.value, (t.result.map FieldType.value).getD .void)

def argumentSlots (t : MethodType) : Nat := (t.values.1.map ValueType.slots).sum

def shape (t : MethodType) : MethodType :=
  ⟨t.parameters.map FieldType.shape, t.result.map FieldType.shape⟩

end MethodType

-- The parser takes the texts of the grammar and no others. Whether it has limits on dimensions and on
-- slots is left open.
def Exact (within : Nat → Nat → Prop)
    (parse : String → Option (List ValueType × ValueType)) : Prop :=
  ∀ d values, parse d = some values ↔ ∃ t : MethodType, t.Legal ∧
    within t.dimensions t.argumentSlots ∧ t.text = d.toList ∧ t.values = values

section Shape

theorem FieldType.value_shape (t : FieldType) : t.shape.value = t.value := by
  cases t <;> rfl

theorem FieldType.dimensions_shape (t : FieldType) : t.shape.dimensions = t.dimensions := by
  induction t with
  | base | object => rfl
  | array element ih => exact congrArg (· + 1) ih

variable (t : MethodType)

theorem MethodType.values_shape : t.shape.values = t.values := by
  simp [values, shape, Function.comp_def, FieldType.value_shape]

theorem MethodType.dimensions_shape : t.shape.dimensions = t.dimensions := by
  have all : t.shape.parameters ++ t.shape.result.toList =
      (t.parameters ++ t.result.toList).map FieldType.shape := by
    cases result : t.result <;> simp [shape, result]
  rw [dimensions, all, List.map_map]
  simp only [Function.comp_def, FieldType.dimensions_shape, dimensions]

end Shape

section Recast

variable {old new : List Char} (legalOld : IsClassName old) (legalNew : IsClassName new)

include legalOld legalNew

theorem FieldType.recast (t : FieldType) (legal : t.Legal) {rest text' : List Char}
    (recast : Signature.Recast old new (t.text ++ rest) text') :
    ∃ t' rest', text' = FieldType.text t' ++ rest' ∧ t'.Legal ∧ t'.shape = t.shape ∧
      Signature.Recast old new rest rest' := by
  induction t generalizing text' with
  | base c =>
      have other : c ≠ 'L' := by
        intro same
        have isBase : c ∈ "BCDFIJSZ".toList := legal
        rw [same] at isBase
        exact absurd isBase (by decide)
      obtain ⟨rest', rfl, recastRest⟩ := recast.tail other
      exact ⟨base c, rest', rfl, legal, rfl, recastRest⟩
  | object name =>
      have cut : text (object name) ++ rest = ('L' :: name) ++ ';' :: rest := by simp [text]
      obtain ⟨front, rest', rfl, recastFront, recastRest⟩ :=
        recast.split legalOld.no_semicolon cut
      obtain ⟨name', rfl⟩ : ∃ name', front = 'L' :: name' := List.head?_eq_some_iff.mp recastFront.head?
      have isName := is_class_name_recast_object legalOld legalNew recastFront legal
      exact ⟨object name', rest', by simp [text], isName, rfl, recastRest⟩
  | array element ih =>
      obtain ⟨tail, rfl, recastTail⟩ := recast.tail (by decide)
      obtain ⟨element', rest', rfl, legal', same, recastRest⟩ := ih legal recastTail
      exact ⟨array element', rest', rfl, legal', congrArg array same, recastRest⟩

theorem FieldType.recast_list (types : List FieldType) (legal : ∀ type ∈ types, type.Legal)
    {rest text' : List Char} (recast : Signature.Recast old new (types.flatMap text ++ rest) text') :
    ∃ (types' : List FieldType) (rest' : List Char), text' = types'.flatMap text ++ rest' ∧
      (∀ type ∈ types', type.Legal) ∧ types'.map shape = types.map shape ∧
      Signature.Recast old new rest rest' := by
  induction types generalizing text' with
  | nil => exact ⟨[], text', rfl, by simp, rfl, recast⟩
  | cons type types ih =>
      obtain ⟨legalHead, legalTail⟩ := List.forall_mem_cons.mp legal
      rw [List.flatMap_cons, List.append_assoc] at recast
      obtain ⟨type', tail, rfl, legalHead', sameHead, recastTail⟩ :=
        FieldType.recast legalOld legalNew type legalHead recast
      obtain ⟨types', rest', rfl, legalTail', sameTail, recastRest⟩ := ih legalTail recastTail
      refine ⟨type' :: types', rest', by simp, ?_, by rw [List.map_cons, sameHead, sameTail]; rfl,
        recastRest⟩
      exact List.forall_mem_cons.mpr ⟨legalHead', legalTail'⟩

theorem MethodType.recast (t : MethodType) (legal : t.Legal) {text' : List Char}
    (recast : Signature.Recast old new t.text text') :
    ∃ t' : MethodType, text' = t'.text ∧ t'.Legal ∧ t'.shape = t.shape := by
  obtain ⟨tail, rfl, recastTail⟩ := recast.tail (by decide)
  obtain ⟨parameters', closed, rfl, legalParameters, sameParameters, recastClosed⟩ :=
    FieldType.recast_list legalOld legalNew t.parameters legal.parameters recastTail
  obtain ⟨result', rfl, recastResult⟩ := recastClosed.tail (by decide)
  obtain ⟨parameters, result⟩ := t
  cases result with
  | none =>
      obtain rfl := recastResult.single (by decide)
      refine ⟨⟨parameters', none⟩, rfl, ⟨legalParameters, by simp⟩, ?_⟩
      exact congrArg (MethodType.mk · none) sameParameters
  | some type =>
      have legalResult : type.Legal := legal.result type rfl
      rw [resultText, ← List.append_nil type.text] at recastResult
      obtain ⟨type', rest', rfl, legalType, sameType, recastRest⟩ :=
        FieldType.recast legalOld legalNew type legalResult recastResult
      obtain rfl := Signature.Recast.nil_iff.mp recastRest
      refine ⟨⟨parameters', some type'⟩, by simp [text, resultText], ⟨legalParameters, ?_⟩, ?_⟩
      · intro type'' member
        cases member
        exact legalType
      · rw [shape, shape, sameParameters, Option.map_some, Option.map_some, sameType]

theorem Exact.recast {within : Nat → Nat → Prop}
    {parse : String → Option (List ValueType × ValueType)} (exactly : Exact within parse)
    {d d' : String} {values : List ValueType × ValueType}
    (recast : Signature.Recast old new d.toList d'.toList) (found : parse d = some values) :
    parse d' = some values := by
  obtain ⟨t, legal, fits, isText, rfl⟩ := (exactly d values).mp found
  rw [← isText] at recast
  obtain ⟨t', isText', legal', shape⟩ := MethodType.recast legalOld legalNew t legal recast
  have sameValues : t'.values = t.values := by rw [← t'.values_shape, shape, t.values_shape]
  refine (exactly d' t.values).mpr ⟨t', legal', ?_, isText'.symm, sameValues⟩
  rw [MethodType.argumentSlots, sameValues, ← t'.dimensions_shape, shape, t.dimensions_shape]
  exact fits

end Recast

end Descriptor

end JvmEdit
