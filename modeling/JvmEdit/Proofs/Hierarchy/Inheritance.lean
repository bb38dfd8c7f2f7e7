import JvmEdit.Proofs.Hierarchy.Search
import JvmEdit.Proofs.Index.Exact
set_option autoImplicit false

namespace JvmEdit

namespace Program

def hasSignature (p : Program) (name descriptor : String) (id : MethodId) : Bool :=
  (p.method? id).any fun m => m.name = name && m.descriptor = descriptor

-- The live method of this name and descriptor that a class has.
def methodIn? (p : Program) (name descriptor : String) (c : ClassId) : Option MethodId :=
  (p.class? c).bind fun k => k.methods.find? (p.hasSignature name descriptor)

def hasName (p : Program) (name : String) (id : FieldId) : Bool := (p.field? id).any (·.name = name)

-- The live field of this name that a class has.
def fieldIn? (p : Program) (name : String) (c : ClassId) : Option FieldId :=
  (p.class? c).bind fun k => k.fields.find? (p.hasName name)

-- The method that the first class to have one has.
def methodAlong? (p : Program) (name descriptor : String) (classes : List ClassId) : Option MethodId :=
  classes.findSome? (p.methodIn? name descriptor)

theorem has_signature_iff (p : Program) (name descriptor : String) (id : MethodId) :
    p.hasSignature name descriptor id ↔
      ∃ n, p.methodNaming? id = some n ∧ n.name = name ∧ n.descriptor = descriptor := by
  simp only [hasSignature, methodNaming?]
  cases p.method? id <;> simp [Method.naming]

section Indexed

variable (p : Program) (indexed : p.Indexed)

include indexed

theorem method_naming?_injective (id id' : MethodId) (n : MethodNaming)
    (named : p.methodNaming? id = some n) (named' : p.methodNaming? id' = some n) : id = id' := by
  obtain ⟨m, live, rfl⟩ := Option.map_eq_some_iff.mp named
  obtain ⟨owner, loaded⟩ := indexed.is_owned.methods id m live
  have keyed : ∀ i, p.methodNaming? i = some m.naming →
      p.methodKey? i = some (Key.method owner m.name m.descriptor) := by
    intro i isNamed
    have found : p.className? m.naming.owner = some owner := loaded
    rw [method_key_eq, isNamed, Option.bind_some, found]
    rfl
  exact Table.inverse_unique _ _ indexed.methods.inverse _ id id' (keyed id named) (keyed id' named')

theorem method_in?_iff (name descriptor : String) (c : ClassId) (id : MethodId) :
    p.methodIn? name descriptor c = some id ↔
      p.methodNaming? id = some ⟨c, name, descriptor⟩ := by
  have signed : ∀ i, (p.methodNaming? i).map (·.owner) = some c ∧ p.hasSignature name descriptor i ↔
      p.methodNaming? i = some ⟨c, name, descriptor⟩ := by
    intro i
    rw [has_signature_iff]
    constructor
    · intro ⟨owned, n, named, sameName, sameDescriptor⟩
      rw [named, Option.map_some, Option.some_inj] at owned
      rw [named, ← owned, ← sameName, ← sameDescriptor]
    · intro named
      rw [named]
      exact ⟨rfl, _, rfl, rfl, rfl⟩
  rw [methodIn?, ← signed id]
  cases live : p.class? c with
  | none =>
      constructor
      · intro found
        cases found
      · intro isNamed
        obtain ⟨m, liveMethod, naming⟩ := Option.map_eq_some_iff.mp ((signed id).mp isNamed)
        obtain ⟨owner, loaded⟩ := indexed.is_owned.methods id m liveMethod
        have owns : m.owner = c := congrArg MethodNaming.owner naming
        rw [className?, owns, live] at loaded
        cases loaded
  | some k =>
      have list : p.methodMembers.list? c = some k.methods := by
        rw [methodMembers]
        simp [classNaming?, live, Class.naming]
      apply Members.find?_listed _ indexed.methods c _ list
      intro i j owned isCalled ownedToo isCalledToo
      exact method_naming?_injective p indexed i j _ ((signed i).mp ⟨owned, isCalled⟩)
        ((signed j).mp ⟨ownedToo, isCalledToo⟩)

theorem field_naming?_injective (id id' : FieldId) (n : FieldNaming)
    (named : p.fieldNaming? id = some n) (named' : p.fieldNaming? id' = some n) : id = id' := by
  obtain ⟨f, live, rfl⟩ := Option.map_eq_some_iff.mp named
  obtain ⟨owner, loaded⟩ := indexed.is_owned.fields id f live
  have keyed : ∀ i, p.fieldNaming? i = some f.naming → p.fieldKey? i = some (Key.field owner f.name) := by
    intro i isNamed
    have found : p.className? f.naming.owner = some owner := loaded
    rw [field_key_eq, isNamed, Option.bind_some, found]
    rfl
  exact Table.inverse_unique _ _ indexed.fields.inverse _ id id' (keyed id named) (keyed id' named')

theorem field_in?_iff (name : String) (c : ClassId) (id : FieldId) :
    p.fieldIn? name c = some id ↔ p.fieldNaming? id = some ⟨c, name⟩ := by
  have called : ∀ i, (p.fieldNaming? i).map (·.owner) = some c ∧ p.hasName name i ↔
      p.fieldNaming? i = some ⟨c, name⟩ := by
    intro i
    rw [fieldNaming?, hasName]
    cases p.field? i <;> simp [Field.naming]
  rw [fieldIn?, ← called id]
  cases live : p.class? c with
  | none =>
      constructor
      · intro found
        cases found
      · intro isNamed
        obtain ⟨f, liveField, naming⟩ := Option.map_eq_some_iff.mp ((called id).mp isNamed)
        obtain ⟨owner, loaded⟩ := indexed.is_owned.fields id f liveField
        have owns : f.owner = c := congrArg FieldNaming.owner naming
        rw [className?, owns, live] at loaded
        cases loaded
  | some k =>
      have list : p.fieldMembers.list? c = some k.fields := by
        rw [fieldMembers]
        simp [classNaming?, live, Class.naming]
      apply Members.find?_listed _ indexed.fields c _ list
      intro i j owned isCalled ownedToo isCalledToo
      exact field_naming?_injective p indexed i j _ ((called i).mp ⟨owned, isCalled⟩)
        ((called j).mp ⟨ownedToo, isCalledToo⟩)

end Indexed

section Inherited

variable (p : Program) {α : Type} (has : ClassId → Option α)

-- The member that a class has of its own, or else takes over from its superclass.
inductive Inherited : ClassId → α → Prop
  | own {c : ClassId} {member : α} (here : has c = some member) : Inherited c member
  | taken {c d : ClassId} {member : α} (none : has c = none) (extends_ : p.superclass? c = some d)
      (above : Inherited d member) : Inherited c member

-- A lookup that starts at the one class comes to the other, and finds nothing before.
inductive Passes : ClassId → ClassId → Prop
  | here (c : ClassId) : Passes c c
  | above {c d e : ClassId} (none : has c = none) (extends_ : p.superclass? c = some d)
      (rest : Passes d e) : Passes c e

variable {p has}

theorem Inherited.unique {c : ClassId} {member member' : α} (inherited : Inherited p has c member)
    (inherited' : Inherited p has c member') : member = member' := by
  induction inherited with
  | own here =>
      cases inherited' with
      | own here' => exact Option.some.inj (here.symm.trans here')
      | taken none _ _ => cases here.symm.trans none
  | taken none extends_ _ ih =>
      cases inherited' with
      | own here => cases here.symm.trans none
      | taken _ extends_' above =>
          cases extends_.symm.trans extends_'
          exact ih above

theorem not_inherited_of_root {c d : ClassId} (absent : has c = none) (extends_ : p.superclass? c = some d)
    (absentAbove : has d = none) (root : p.superclass? d = none) (member : α) :
    ¬Inherited p has c member := by
  intro inherited
  cases inherited with
  | own here => cases absent.symm.trans here
  | taken _ extends' above =>
      cases extends_.symm.trans extends'
      cases above with
      | own here => cases absentAbove.symm.trans here
      | taken _ extends' _ => cases root.symm.trans extends'

theorem inherited_iff (c : ClassId) (member : α) :
    Inherited p has c member ↔ ∃ d, Passes p has c d ∧ has d = some member := by
  constructor
  · intro inherited
    induction inherited with
    | own here => exact ⟨_, .here _, here⟩
    | taken none extends_ _ ih =>
        obtain ⟨d, passes, here⟩ := ih
        exact ⟨d, .above none extends_ passes, here⟩
  · intro ⟨d, passes, here⟩
    induction passes with
    | here => exact .own here
    | above none extends_ _ ih => exact .taken none extends_ (ih here)

end Inherited

section Changed

variable {p q : Program} {α : Type} {has hasNow : ClassId → Option α}
  (supers : ∀ c, q.superclass? c = p.superclass? c)

include supers

theorem Passes.captured {c d : ClassId} (passes : Passes p has c d) (absent : has d = none)
    (present : (hasNow d).isSome) : ∃ e member, has e = none ∧ hasNow e = some member ∧
      Inherited q hasNow c member := by
  induction passes with
  | here c =>
      obtain ⟨member, here⟩ := Option.isSome_iff_exists.mp present
      exact ⟨c, member, absent, here, .own here⟩
  | @above c d e none extends_ _ ih =>
      cases here : hasNow c with
      | some member => exact ⟨c, member, none, here, .own here⟩
      | none =>
          obtain ⟨e, member, before, now, above⟩ := ih absent present
          exact ⟨e, member, before, now, .taken here ((supers c).trans extends_) above⟩

theorem inherited_same_iff
    (stays : ∀ d e member, has d = some member → hasNow e = some member → d = e) (c : ClassId) :
    (∀ member, Inherited q hasNow c member ↔ Inherited p has c member) ↔
      ∀ d, Passes p has c d → hasNow d = has d := by
  constructor
  · intro same d passes
    cases before : has d with
    | some member =>
        have inherited := (same member).mpr ((inherited_iff c member).mpr ⟨d, passes, before⟩)
        obtain ⟨e, _, now⟩ := (inherited_iff c member).mp inherited
        rw [stays d e member before now, now]
    | none =>
        rw [← Option.not_isSome_iff_eq_none]
        intro now
        obtain ⟨e, member, absent, here, inherited⟩ := passes.captured supers before now
        obtain ⟨e', _, here'⟩ := (inherited_iff c member).mp ((same member).mp inherited)
        rw [stays e' e member here' here, absent] at here'
        cases here'
  · intro unchanged member
    constructor
    · intro inherited
      induction inherited with
      | @own c member here => exact .own ((unchanged c (.here c)).symm.trans here)
      | @taken c d member none extends_ _ ih =>
          have absent := (unchanged c (.here c)).symm.trans none
          have extends' := (supers c).symm.trans extends_
          apply Inherited.taken absent extends'
          exact ih fun e passes => unchanged e (.above absent extends' passes)
    · intro inherited
      induction inherited with
      | @own c member here => exact .own ((unchanged c (.here c)).trans here)
      | @taken c d member none extends_ _ ih =>
          apply Inherited.taken ((unchanged c (.here c)).trans none) ((supers c).trans extends_)
          exact ih fun e passes => unchanged e (.above none extends_ passes)

end Changed

end Program

end JvmEdit
