import JvmEdit.Proofs.Descriptor.Unambiguous
set_option autoImplicit false

namespace JvmEdit

namespace Signature

section Validity

def inIdentifier (c : Char) : Bool := !".;[/<>:".toList.contains c

def isIdentifier (name : List Char) : Bool := name ≠ [] && name.all inIdentifier

-- Identifiers with slashes between them.
def isClassName (name : List Char) : Bool :=
  name.all (fun c => c = '/' || inIdentifier c) && (name.splitOn '/').all (· ≠ [])

def Arguments.isGiven : Arguments → Bool
  | .stop => false
  | _ => true

def Tail.isArguments : Tail → Bool
  | .arguments _ _ => true
  | _ => false

mutual

-- The types of the grammar of signatures (JVMS 4.7.9.1).
def TypeTree.isValid : TypeTree → Bool
  | .base letter => isBase letter && letter ≠ 'V'
  | .array element => element.isValid
  | .typeVariable name => isIdentifier name
  | .named name tail => isClassName name && tail.isValid

-- Arguments stand directly behind a name.
def Tail.isValid : Tail → Bool
  | .stop => true
  | .member name tail => isIdentifier name && tail.isValid
  | .arguments arguments tail =>
      arguments.isGiven && arguments.isValid && !tail.isArguments && tail.isValid

def Arguments.isValid : Arguments → Bool
  | .stop => true
  | .any rest => rest.isValid
  | .bounded _ type rest => type.isReference && type.isValid && rest.isValid
  | .exact type rest => type.isReference && type.isValid && rest.isValid

end

def TypeTree.isClass : TypeTree → Bool
  | .named _ _ => true
  | _ => false

def TypeTree.isVariable : TypeTree → Bool
  | .typeVariable _ => true
  | _ => false

-- The first bound may be left out.
def Parameter.isValid (p : Parameter) : Bool :=
  isIdentifier p.name && p.bounds ≠ [] && p.bounds.tail.all Option.isSome &&
    p.bounds.all fun bound => bound.all fun t => t.isReference && t.isValid

namespace Tree

-- The superclass and the interfaces.
def IsClassShape (items : List Item) : Prop :=
  ∃ types : List TypeTree, types ≠ [] ∧ items = types.map .type ∧
    ∀ t ∈ types, t.isClass = true ∧ t.isValid = true

-- The parameter types, the result and the exceptions.
def IsMethodShape (items : List Item) : Prop :=
  ∃ (types : List TypeTree) (result : TypeTree) (thrown : List TypeTree),
    items = .mark '(' :: (types.map .type ++ .mark ')' :: .type result ::
      thrown.flatMap fun t => [.mark '^', .type t]) ∧
    (∀ t ∈ types, t.isValid = true) ∧ (result.isValid = true ∨ result = .base 'V') ∧
    ∀ t ∈ thrown, (t.isClass || t.isVariable) = true ∧ t.isValid = true

def IsFieldShape (items : List Item) : Prop :=
  ∃ t : TypeTree, items = [.type t] ∧ t.isReference = true ∧ t.isValid = true

-- The signatures of classes, methods and fields.
def Valid (t : Tree) : Prop :=
  (∀ ps ∈ t.parameters, ps ≠ [] ∧ ∀ p ∈ ps, p.isValid = true) ∧
    (IsClassShape t.items ∨ IsMethodShape t.items ∨ t.parameters = none ∧ IsFieldShape t.items)

-- No type parameter that ends with a bound left out comes before one whose name begins like a type.
def Apart (t : Tree) : Prop :=
  (t.parameters.getD []).IsChain fun p q => p.endsOpen = true → q.name.head?.any opensBound = false

end Tree

theorem ends_name_of_in_identifier (c : Char) (inside : inIdentifier c = true) : endsName c = false := by
  simp only [inIdentifier, endsName, Bool.not_eq_true', List.contains_eq_mem] at inside ⊢
  simp_all

theorem plain_of_is_identifier (name : List Char) (valid : isIdentifier name = true) :
    ∀ c ∈ name, endsName c = false := by
  simp only [isIdentifier, Bool.and_eq_true, List.all_eq_true] at valid
  exact fun c member => ends_name_of_in_identifier c (valid.2 c member)

theorem plain_of_is_class_name (name : List Char) (valid : isClassName name = true) :
    ∀ c ∈ name, endsName c = false := by
  simp only [isClassName, Bool.and_eq_true, List.all_eq_true, Bool.or_eq_true, decide_eq_true_eq] at valid
  intro c member
  rcases valid.1 c member with rfl | inside
  · rfl
  · exact ends_name_of_in_identifier c inside

mutual

theorem TypeTree.spelled_of_is_valid (t : TypeTree) (valid : t.isValid = true) :
    t.spelled endsName = true := by
  cases t with
  | base letter => exact (Bool.and_eq_true_iff.mp valid).1
  | array element => exact element.spelled_of_is_valid valid
  | typeVariable name =>
      have plain := plain_of_is_identifier name valid
      simpa [TypeTree.spelled] using plain
  | named name tail =>
      obtain ⟨isName, validTail⟩ := Bool.and_eq_true_iff.mp valid
      have plain := plain_of_is_class_name name isName
      simpa [TypeTree.spelled, tail.spelled_of_is_valid validTail] using plain

theorem Tail.spelled_of_is_valid (t : Tail) (valid : t.isValid = true) : t.spelled endsName = true := by
  cases t with
  | stop => rfl
  | member name tail =>
      obtain ⟨isName, validTail⟩ := Bool.and_eq_true_iff.mp valid
      have plain := plain_of_is_identifier name isName
      simpa [Tail.spelled, tail.spelled_of_is_valid validTail] using plain
  | arguments arguments tail =>
      simp only [Tail.isValid, Bool.and_eq_true] at valid
      obtain ⟨⟨⟨_, validArguments⟩, _⟩, validTail⟩ := valid
      simp [Tail.spelled, arguments.spelled_of_is_valid validArguments, tail.spelled_of_is_valid validTail]

theorem Arguments.spelled_of_is_valid (a : Arguments) (valid : a.isValid = true) :
    a.spelled endsName = true := by
  cases a with
  | stop => rfl
  | any rest => exact rest.spelled_of_is_valid valid
  | bounded sign type rest =>
      simp only [Arguments.isValid, Bool.and_eq_true] at valid
      simp [Arguments.spelled, type.spelled_of_is_valid valid.1.2, rest.spelled_of_is_valid valid.2]
  | exact type rest =>
      simp only [Arguments.isValid, Bool.and_eq_true] at valid
      simp [Arguments.spelled, type.spelled_of_is_valid valid.1.2, rest.spelled_of_is_valid valid.2]

end

theorem Parameter.spelled_of_is_valid (p : Parameter) (valid : p.isValid = true) :
    p.spelled endsName = true := by
  simp only [isValid, Bool.and_eq_true, decide_eq_true_eq, List.all_eq_true] at valid
  obtain ⟨⟨⟨isName, bounded⟩, _⟩, types⟩ := valid
  have inside : ∀ c ∈ p.name, inIdentifier c = true := by
    simp only [isIdentifier, Bool.and_eq_true, List.all_eq_true] at isName
    exact isName.2
  refine (p.spelled_iff endsName).mpr ⟨?_, ?_, bounded, fun bound member t isType => ?_⟩
  · rintro c member rfl
    cases inside ':' member
  · intro opens
    cases inside '>' (List.mem_of_mem_head? opens)
  · have given := types bound member
    rw [isType] at given
    simp only [Option.all_some, Bool.and_eq_true] at given
    exact ⟨given.1, t.spelled_of_is_valid given.2⟩

theorem Tree.Valid.items {t : Tree} (valid : t.Valid) : ∀ i ∈ t.items, i.spelled endsName = true := by
  have ofTypes : ∀ types : List TypeTree, (∀ t ∈ types, t.isValid = true) →
      ∀ i ∈ types.map Item.type, i.spelled endsName = true := by
    intro types each i member
    obtain ⟨t, isType, rfl⟩ := List.mem_map.mp member
    exact t.spelled_of_is_valid (each t isType)
  rcases valid.2 with ⟨types, _, items, each⟩ | ⟨types, result, thrown, items, each, isResult, eachThrown⟩ |
    ⟨_, t, items, _, isType⟩
  · rw [items]
    exact ofTypes types fun t member => (each t member).2
  · rw [items]
    intro i member
    simp only [List.mem_cons, List.mem_append, List.mem_flatMap, List.not_mem_nil, or_false] at member
    rcases member with rfl | isParameter | rfl | rfl | ⟨t, isThrown, rfl | rfl⟩
    · rfl
    · exact ofTypes types each i isParameter
    · rfl
    · rcases isResult with isType | rfl
      · exact result.spelled_of_is_valid isType
      · rfl
    · rfl
    · exact t.spelled_of_is_valid (eachThrown t isThrown).2
  · rw [items]
    exact ofTypes [t] (by simpa using isType)

theorem Tree.Valid.readable {t : Tree} (valid : t.Valid) (apart : t.Apart) : t.Readable := by
  refine ⟨fun p member => ?_, apart, fun i member => ?_⟩
  · cases parameters : t.parameters with
    | none => simp [parameters] at member
    | some ps =>
        rw [parameters] at member
        have isValid := (valid.1 ps parameters).2 p member
        exact p.spelled_wider endsName _ ends_variable_of_ends_name (p.spelled_of_is_valid isValid)
  · exact i.spelled_wider endsName _ ends_variable_of_ends_name (valid.items i member)

end Validity

-- A class type without its arguments: the name of the outermost class, and what the names of inner
-- classes add to it.
structure ClassType where
  outermost : List Char
  inner : List Char
  deriving DecidableEq

namespace ClassType

def name (c : ClassType) : List Char := c.outermost ++ c.inner

def rename (old new : List Char) (c : ClassType) : ClassType :=
  { c with outermost := if c.outermost = old then new else c.outermost }

end ClassType

section ClassTypes

def Tail.inner : Tail → List Char
  | .stop => []
  | .member name tail => '$' :: (name ++ tail.inner)
  | .arguments _ tail => tail.inner

mutual

def TypeTree.classTypes : TypeTree → List ClassType
  | .base _ => []
  | .array element => element.classTypes
  | .typeVariable _ => []
  | .named name tail => ⟨name, tail.inner⟩ :: tail.classTypes

def Tail.classTypes : Tail → List ClassType
  | .stop => []
  | .member _ tail => tail.classTypes
  | .arguments arguments tail => arguments.classTypes ++ tail.classTypes

def Arguments.classTypes : Arguments → List ClassType
  | .stop => []
  | .any rest => rest.classTypes
  | .bounded _ type rest => type.classTypes ++ rest.classTypes
  | .exact type rest => type.classTypes ++ rest.classTypes

end

def Bound.classTypes (b : Bound) : List ClassType := b.type.elim [] TypeTree.classTypes

def Parameter.classTypes (p : Parameter) : List ClassType :=
  p.bounds.flatMap fun bound => bound.elim [] TypeTree.classTypes

def Item.classTypes : Item → List ClassType
  | mark _ => []
  | type t => t.classTypes

namespace Tree

-- The class types in the order of the text. Arguments come behind the class they are given to.
def classTypes (t : Tree) : List ClassType :=
  t.parameters.elim [] (·.flatMap Parameter.classTypes) ++ t.items.flatMap Item.classTypes

-- The names of the classes that a signature denotes.
def denoted (t : Tree) : List (List Char) := t.classTypes.map ClassType.name

end Tree

theorem Parameter.separate_class_types (p : Parameter) : p.separate.flatMap Bound.classTypes = p.classTypes := by
  rw [classTypes, ← p.separate_types, List.flatMap_map]
  rfl

theorem Tree.separate_class_types (t : Tree) : t.classTypes =
    t.separate.1.elim [] (·.flatMap Bound.classTypes) ++ t.separate.2.flatMap Item.classTypes := by
  rw [classTypes, separate]
  cases t.parameters with
  | none => rfl
  | some ps => simp [List.flatMap_assoc, Parameter.separate_class_types]

theorem Tree.class_types_unique (t t' : Tree) (readable : t.Readable) (readable' : t'.Readable)
    (same : t.text = t'.text) : t.classTypes = t'.classTypes := by
  rw [t.separate_class_types, t.separate_unique t' readable readable' same, ← t'.separate_class_types]

variable (old new : List Char)

theorem Tail.inner_rename (t : Tail) : (t.rename old new).inner = t.inner := by
  cases t with
  | stop => rfl
  | member name tail => simp [Tail.rename, Tail.inner, tail.inner_rename]
  | arguments arguments tail => simp [Tail.rename, Tail.inner, tail.inner_rename]

mutual

theorem TypeTree.class_types_rename (t : TypeTree) :
    (t.rename old new).classTypes = t.classTypes.map (ClassType.rename old new) := by
  cases t with
  | base letter => rfl
  | array element => exact element.class_types_rename
  | typeVariable name => rfl
  | named name tail =>
      simp [TypeTree.rename, TypeTree.classTypes, ClassType.rename, tail.inner_rename, tail.class_types_rename]

theorem Tail.class_types_rename (t : Tail) :
    (t.rename old new).classTypes = t.classTypes.map (ClassType.rename old new) := by
  cases t with
  | stop => rfl
  | member name tail => exact tail.class_types_rename
  | arguments arguments tail =>
      simp [Tail.rename, Tail.classTypes, arguments.class_types_rename, tail.class_types_rename]

theorem Arguments.class_types_rename (a : Arguments) :
    (a.rename old new).classTypes = a.classTypes.map (ClassType.rename old new) := by
  cases a with
  | stop => rfl
  | any rest => exact rest.class_types_rename
  | bounded sign type rest =>
      simp [Arguments.rename, Arguments.classTypes, type.class_types_rename, rest.class_types_rename]
  | exact type rest =>
      simp [Arguments.rename, Arguments.classTypes, type.class_types_rename, rest.class_types_rename]

end

mutual

theorem TypeTree.class_names_eq (t : TypeTree) : t.classNames = t.classTypes.map ClassType.outermost := by
  cases t with
  | base letter => rfl
  | array element => exact element.class_names_eq
  | typeVariable name => rfl
  | named name tail => simp [TypeTree.classNames, TypeTree.classTypes, tail.class_names_eq]

theorem Tail.class_names_eq (t : Tail) : t.classNames = t.classTypes.map ClassType.outermost := by
  cases t with
  | stop => rfl
  | member name tail => exact tail.class_names_eq
  | arguments arguments tail =>
      simp [Tail.classNames, Tail.classTypes, arguments.class_names_eq, tail.class_names_eq]

theorem Arguments.class_names_eq (a : Arguments) : a.classNames = a.classTypes.map ClassType.outermost := by
  cases a with
  | stop => rfl
  | any rest => exact rest.class_names_eq
  | bounded sign type rest =>
      simp [Arguments.classNames, Arguments.classTypes, type.class_names_eq, rest.class_names_eq]
  | exact type rest =>
      simp [Arguments.classNames, Arguments.classTypes, type.class_names_eq, rest.class_names_eq]

end

theorem Parameter.class_types_rename (p : Parameter) :
    (p.rename old new).classTypes = p.classTypes.map (ClassType.rename old new) := by
  rw [classTypes, classTypes, rename, List.flatMap_map, List.map_flatMap]
  refine List.flatMap_congr fun bound _ => ?_
  cases bound with
  | none => rfl
  | some t => exact t.class_types_rename old new

theorem Item.class_types_rename (i : Item) :
    (i.rename old new).classTypes = i.classTypes.map (ClassType.rename old new) := by
  cases i with
  | mark c => rfl
  | type t => exact t.class_types_rename old new

theorem Tree.class_types_rename (t : Tree) :
    (t.rename old new).classTypes = t.classTypes.map (ClassType.rename old new) := by
  have items : (t.items.map (Item.rename old new)).flatMap Item.classTypes =
      (t.items.flatMap Item.classTypes).map (ClassType.rename old new) := by
    rw [List.flatMap_map, List.map_flatMap]
    exact List.flatMap_congr fun i _ => i.class_types_rename old new
  rw [classTypes, classTypes, rename, items, List.map_append]
  cases t.parameters with
  | none => rfl
  | some ps =>
      simp only [Option.map_some, Option.elim_some, List.flatMap_map, List.map_flatMap]
      rw [List.flatMap_congr fun p _ => p.class_types_rename old new]

theorem Tree.class_names_eq (t : Tree) : t.classNames = t.classTypes.map ClassType.outermost := by
  have parameters : ∀ p : Parameter, p.classNames = p.classTypes.map ClassType.outermost := by
    intro p
    rw [Parameter.classNames, Parameter.classTypes, List.map_flatMap]
    refine List.flatMap_congr fun bound _ => ?_
    cases bound with
    | none => rfl
    | some t => exact t.class_names_eq
  have items : ∀ i : Item, i.classNames = i.classTypes.map ClassType.outermost := by
    intro i
    cases i with
    | mark c => rfl
    | type t => exact t.class_names_eq
  rw [classNames, classTypes, List.map_append, List.map_flatMap,
    List.flatMap_congr fun i _ => items i]
  cases t.parameters with
  | none => rfl
  | some ps =>
      rw [Option.elim_some, Option.elim_some, List.map_flatMap, List.flatMap_congr fun p _ => parameters p]

end ClassTypes

section Renamed

variable (old new : List Char)

@[simp]
theorem TypeTree.is_reference_rename (t : TypeTree) : (t.rename old new).isReference = t.isReference := by
  cases t <;> rfl

@[simp]
theorem Tail.is_arguments_rename (t : Tail) : (t.rename old new).isArguments = t.isArguments := by
  cases t <;> rfl

@[simp]
theorem Arguments.is_given_rename (a : Arguments) : (a.rename old new).isGiven = a.isGiven := by
  cases a <;> rfl

mutual

theorem TypeTree.is_valid_rename (isName : isClassName new = true) (t : TypeTree) (valid : t.isValid = true) :
    (t.rename old new).isValid = true := by
  cases t with
  | base letter => exact valid
  | array element => exact element.is_valid_rename isName valid
  | typeVariable name => exact valid
  | named name tail =>
      obtain ⟨isOther, validTail⟩ := Bool.and_eq_true_iff.mp valid
      rw [TypeTree.rename, TypeTree.isValid, tail.is_valid_rename isName validTail]
      split <;> simp [isName, isOther]

theorem Tail.is_valid_rename (isName : isClassName new = true) (t : Tail) (valid : t.isValid = true) :
    (t.rename old new).isValid = true := by
  cases t with
  | stop => rfl
  | member name tail =>
      obtain ⟨isOther, validTail⟩ := Bool.and_eq_true_iff.mp valid
      rw [Tail.rename, Tail.isValid, isOther, tail.is_valid_rename isName validTail]
      rfl
  | arguments arguments tail =>
      simp only [Tail.isValid, Bool.and_eq_true] at valid
      obtain ⟨⟨⟨given, validArguments⟩, single⟩, validTail⟩ := valid
      simp [Tail.rename, Tail.isValid, given, single, arguments.is_valid_rename isName validArguments,
        tail.is_valid_rename isName validTail]

theorem Arguments.is_valid_rename (isName : isClassName new = true) (a : Arguments) (valid : a.isValid = true) :
    (a.rename old new).isValid = true := by
  cases a with
  | stop => rfl
  | any rest => exact rest.is_valid_rename isName valid
  | bounded sign type rest =>
      simp only [Arguments.isValid, Bool.and_eq_true] at valid
      simp [Arguments.rename, Arguments.isValid, valid.1.1, type.is_valid_rename isName valid.1.2,
        rest.is_valid_rename isName valid.2]
  | exact type rest =>
      simp only [Arguments.isValid, Bool.and_eq_true] at valid
      simp [Arguments.rename, Arguments.isValid, valid.1.1, type.is_valid_rename isName valid.1.2,
        rest.is_valid_rename isName valid.2]

end

@[simp]
theorem TypeTree.is_class_rename (t : TypeTree) : (t.rename old new).isClass = t.isClass := by
  cases t <;> rfl

@[simp]
theorem TypeTree.is_variable_rename (t : TypeTree) : (t.rename old new).isVariable = t.isVariable := by
  cases t <;> rfl

@[simp]
theorem Parameter.ends_open_rename (p : Parameter) : (p.rename old new).endsOpen = p.endsOpen := by
  rw [endsOpen, endsOpen, rename, List.getLast?_map]
  cases p.bounds.getLast? with
  | none => rfl
  | some bound => cases bound <;> rfl

theorem Parameter.is_valid_rename (isName : isClassName new = true) (p : Parameter) (valid : p.isValid = true) :
    (p.rename old new).isValid = true := by
  simp only [isValid, Bool.and_eq_true, decide_eq_true_eq] at valid
  obtain ⟨⟨⟨named, bounded⟩, others⟩, types⟩ := valid
  have given : (p.rename old new).bounds.tail.all Option.isSome = true := by
    simpa [rename, ← List.map_tail] using others
  have each : (p.rename old new).bounds.all
      (fun bound => bound.all fun t => t.isReference && t.isValid) = true := by
    simp only [rename, List.all_map, List.all_eq_true] at types ⊢
    intro bound member
    have isType := types bound member
    cases bound with
    | none => rfl
    | some t =>
        simp only [Option.all_some, Bool.and_eq_true] at isType
        simp [isType.1, t.is_valid_rename old new isName isType.2]
  simp [isValid, given, each]
  simp [rename, named, bounded]

theorem types_rename (types : List TypeTree) :
    (types.map Item.type).map (Item.rename old new) = (types.map (TypeTree.rename old new)).map Item.type := by
  simp [Item.rename]

theorem Tree.Valid.rename {t : Tree} (valid : t.Valid) (isName : isClassName new = true) :
    (t.rename old new).Valid := by
  obtain ⟨parameters, shape⟩ := valid
  refine ⟨?_, ?_⟩
  · intro ps member
    obtain ⟨ps', isParameters, rfl⟩ := Option.map_eq_some_iff.mp member
    obtain ⟨nonempty, each⟩ := parameters ps' isParameters
    refine ⟨by simpa using nonempty, fun p isParameter => ?_⟩
    obtain ⟨p', isOld, rfl⟩ := List.mem_map.mp isParameter
    exact p'.is_valid_rename old new isName (each p' isOld)
  rcases shape with ⟨types, nonempty, items, each⟩ | ⟨types, result, thrown, items, each, isResult, eachThrown⟩ |
    ⟨plain, type, items, reference, isType⟩
  · refine .inl ⟨types.map (TypeTree.rename old new), by simpa using nonempty, ?_, ?_⟩
    · rw [Tree.rename, items, types_rename]
    · intro t' member
      obtain ⟨t, isOld, rfl⟩ := List.mem_map.mp member
      simpa [(each t isOld).1] using t.is_valid_rename old new isName (each t isOld).2
  · refine .inr (.inl ⟨types.map (TypeTree.rename old new), result.rename old new,
      thrown.map (TypeTree.rename old new), ?_, ?_, ?_, ?_⟩)
    · simp [Tree.rename, items, Item.rename, List.flatMap_map, List.map_flatMap]
    · intro t' member
      obtain ⟨t, isOld, rfl⟩ := List.mem_map.mp member
      exact t.is_valid_rename old new isName (each t isOld)
    · rcases isResult with isType | rfl
      · exact .inl (result.is_valid_rename old new isName isType)
      · exact .inr rfl
    · intro t' member
      obtain ⟨t, isOld, rfl⟩ := List.mem_map.mp member
      obtain ⟨isThrown, isType⟩ := eachThrown t isOld
      exact ⟨by simpa using isThrown, t.is_valid_rename old new isName isType⟩
  · refine .inr (.inr ⟨by rw [Tree.rename, plain]; rfl, type.rename old new, ?_, ?_, ?_⟩)
    · rw [Tree.rename, items]
      rfl
    · rw [type.is_reference_rename, reference]
    · exact type.is_valid_rename old new isName isType

variable (stops : Char → Bool)

mutual

theorem TypeTree.spelled_rename (plain : ∀ c ∈ new, endsName c = false) (t : TypeTree)
    (spelled : t.spelled stops = true) : (t.rename old new).spelled stops = true := by
  cases t with
  | base letter => exact spelled
  | array element => exact element.spelled_rename plain spelled
  | typeVariable name => exact spelled
  | named name tail =>
      obtain ⟨isOther, spelledTail⟩ := Bool.and_eq_true_iff.mp spelled
      have isNew : new.all (!endsName ·) = true := by simpa using plain
      rw [TypeTree.rename, TypeTree.spelled, tail.spelled_rename plain spelledTail]
      split <;> simp only [isNew, isOther, Bool.and_self]

theorem Tail.spelled_rename (plain : ∀ c ∈ new, endsName c = false) (t : Tail)
    (spelled : t.spelled stops = true) : (t.rename old new).spelled stops = true := by
  cases t with
  | stop => rfl
  | member name tail =>
      obtain ⟨isOther, spelledTail⟩ := Bool.and_eq_true_iff.mp spelled
      rw [Tail.rename, Tail.spelled, tail.spelled_rename plain spelledTail, isOther]
      rfl
  | arguments arguments tail =>
      obtain ⟨spelledArguments, spelledTail⟩ := Bool.and_eq_true_iff.mp spelled
      rw [Tail.rename, Tail.spelled, arguments.spelled_rename plain spelledArguments, tail.spelled_rename plain spelledTail]
      rfl

theorem Arguments.spelled_rename (plain : ∀ c ∈ new, endsName c = false) (a : Arguments)
    (spelled : a.spelled stops = true) : (a.rename old new).spelled stops = true := by
  cases a with
  | stop => rfl
  | any rest => exact rest.spelled_rename plain spelled
  | bounded sign type rest =>
      obtain ⟨spelledType, spelledRest⟩ := Bool.and_eq_true_iff.mp spelled
      rw [Arguments.rename, Arguments.spelled, type.spelled_rename plain spelledType, rest.spelled_rename plain spelledRest]
      rfl
  | exact type rest =>
      obtain ⟨spelledType, spelledRest⟩ := Bool.and_eq_true_iff.mp spelled
      rw [Arguments.rename, Arguments.spelled, type.spelled_rename plain spelledType, rest.spelled_rename plain spelledRest]
      rfl

end

theorem Tree.Readable.rename {t : Tree} (readable : t.Readable) (plain : ∀ c ∈ new, endsName c = false) :
    (t.rename old new).Readable := by
  obtain ⟨parameters, apart, items⟩ := readable
  have renamed : (t.rename old new).parameters.getD [] =
      (t.parameters.getD []).map (Parameter.rename old new) := by
    rw [Tree.rename]
    cases t.parameters <;> rfl
  refine ⟨?_, ?_, ?_⟩
  · intro p' member
    rw [renamed] at member
    obtain ⟨p, isOld, rfl⟩ := List.mem_map.mp member
    obtain ⟨named, opens, bounded, types⟩ := (p.spelled_iff endsVariable).mp (parameters p isOld)
    refine (Parameter.spelled_iff endsVariable _).mpr
      ⟨named, opens, by simpa [Parameter.rename] using bounded, fun bound isBound t' isType => ?_⟩
    obtain ⟨bound', isOldBound, rfl⟩ := List.mem_map.mp isBound
    obtain ⟨t, isOldType, rfl⟩ := Option.map_eq_some_iff.mp isType
    obtain ⟨reference, spelled⟩ := types bound' isOldBound t isOldType
    exact ⟨by rw [t.is_reference_rename, reference], t.spelled_rename old new endsVariable plain spelled⟩
  · rw [renamed, List.isChain_map]
    exact apart.imp fun p q follows isOpen => follows (by rwa [p.ends_open_rename] at isOpen)
  · intro i' member
    obtain ⟨i, isOld, rfl⟩ := List.mem_map.mp member
    cases i with
    | mark c => exact items _ isOld
    | type t => exact t.spelled_rename old new endsVariable plain (items _ isOld)

end Renamed

theorem ClassType.rename_name_eq_iff (old new : List Char) (c : ClassType) :
    (c.rename old new).name = (if c.name = old then new else c.name) ↔
      old = new ∨ c.inner = [] ∨ c.outermost ≠ old ∧ c.name ≠ old := by
  obtain ⟨outermost, inner⟩ := c
  simp only [rename, name]
  by_cases single : inner = []
  · simp [single]
  by_cases isOld : outermost = old
  · simp [isOld, single, eq_comm]
  by_cases named : outermost ++ inner = old
  · simp [isOld, named, single]
  · simp [isOld, named]

theorem Tree.text_rename_of_not_mem (t : Tree) (old new : List Char) (absent : old ∉ t.classNames) :
    (t.rename old new).text = t.text := by
  have unnamed : .className old ∉ t.tokens := fun member => absent ((t.mem_tokens old).mp member)
  have kept : t.tokens.map (Token.rename old new) = t.tokens := by
    refine (List.map_congr_left fun token member => ?_).trans (List.map_id _)
    cases token with
    | mark c => rfl
    | className name =>
        have differ : name ≠ old := fun isOld => unnamed (isOld ▸ member)
        simp [Token.rename, differ]
  rw [← Tree.render_tokens, Tree.tokens_rename, kept, Tree.render_tokens]

theorem Tree.rename?_get_d (t : Tree) (readable : t.Readable) (text old new : String)
    (same : t.text = text.toList) :
    ((rename? text old new).getD text).toList = (t.rename old.toList new.toList).text := by
  rw [t.rename?_text readable text old new same]
  split
  · exact String.toList_ofList
  · rename_i absent
    rw [t.text_rename_of_not_mem _ _ absent, same]
    rfl

-- A rename of a class changes the class types whose outermost class it is, and no others. So it changes
-- what a signature denotes for that class alone exactly when the signature has no inner class of it and
-- none that bears its name.
theorem renames_outermost (t : Tree) (valid : t.Valid) (apart : t.Apart) (text old new : String)
    (same : t.text = text.toList) (plain : ∀ c ∈ new.toList, endsName c = false) :
    (∃ t' : Tree, t'.Readable ∧ t'.text = ((rename? text old new).getD text).toList ∧
      (isClassName new.toList = true → t'.Valid)) ∧
    ∀ t' : Tree, t'.Readable → t'.text = ((rename? text old new).getD text).toList →
      t'.classTypes = t.classTypes.map (ClassType.rename old.toList new.toList) ∧
      (t'.denoted = t.denoted.map (fun name => if name = old.toList then new.toList else name) ↔
        old = new ∨ ∀ c ∈ t.classTypes, c.inner ≠ [] → c.outermost ≠ old.toList ∧ c.name ≠ old.toList) := by
  have readable := valid.readable apart
  have reread := readable.rename old.toList new.toList plain
  rw [t.rename?_get_d readable text old new same]
  refine ⟨⟨_, reread, rfl, fun isName => valid.rename _ _ isName⟩, fun t' readable' same' => ?_⟩
  have types : t'.classTypes = t.classTypes.map (ClassType.rename old.toList new.toList) := by
    rw [t'.class_types_unique _ readable' reread same', Tree.class_types_rename]
  refine ⟨types, ?_⟩
  rw [Tree.denoted, Tree.denoted, types, List.map_map, List.map_map, List.map_inj_left]
  simp only [Function.comp_apply, ClassType.rename_name_eq_iff, String.toList_inj]
  constructor
  · intro each
    by_cases isSame : old = new
    · exact .inl isSame
    · exact .inr fun c member isInner => ((each c member).resolve_left isSame).resolve_left isInner
  · rintro (isSame | each) c member
    · exact .inl isSame
    · by_cases single : c.inner = []
      · exact .inr (.inl single)
      · exact .inr (.inr (each c member single))

-- An inner class of a class with type arguments.
def innerSignature : Tree where
  parameters := none
  items := [.type (.named "p/A".toList (.arguments (.exact (.named "p/B".toList .stop) .stop)
    (.member "C".toList .stop)))]

theorem inner_signature_valid : innerSignature.Valid :=
  ⟨by simp [innerSignature], .inr (.inr ⟨rfl, _, rfl, by decide, by decide⟩)⟩

theorem renames_outermost_argument :
    innerSignature.Valid ∧ innerSignature.text = "Lp/A<Lp/B;>.C;".toList ∧
      innerSignature.denoted = ["p/A$C".toList, "p/B".toList] ∧
      ∀ t' : Tree, t'.Readable → t'.text = "Lp/A<Lp/X;>.C;".toList →
        t'.denoted = ["p/A$C".toList, "p/X".toList] := by
  have renamed := renames_outermost innerSignature inner_signature_valid .nil "Lp/A<Lp/B;>.C;" "p/B" "p/X"
    (by decide) (by simp [endsName])
  refine ⟨inner_signature_valid, by decide, by decide, fun t' readable same => ?_⟩
  have result : (rename? "Lp/A<Lp/B;>.C;" "p/B" "p/X").getD "Lp/A<Lp/B;>.C;" = "Lp/A<Lp/X;>.C;" := by decide
  rw [result] at renamed
  exact ((renamed.2 t' readable same).2.mpr (.inr (by decide))).trans (by decide)

-- A type parameter without a bound, before one whose name begins like a class type.
def bareSignature : Tree where
  parameters := some [⟨"T".toList, [none]⟩, ⟨"LFoo".toList, [some (.named "p/Old".toList .stop)]⟩]
  items := [.type (.named "p/Base".toList .stop)]

-- The inner class goes along with a rename of the outermost one, and is not found by its own name. Nor
-- is the bound of a type parameter that is taken for a part of a bound.
theorem inner_misnamed :
    (innerSignature.Valid ∧ innerSignature.text = "Lp/A<Lp/B;>.C;".toList ∧
      innerSignature.denoted = ["p/A$C".toList, "p/B".toList]) ∧
    (rename? "Lp/A<Lp/B;>.C;" "p/A" "p/X" = some "Lp/X<Lp/B;>.C;" ∧
      ∃ t : Tree, t.Valid ∧ t.text = "Lp/X<Lp/B;>.C;".toList ∧ t.denoted = ["p/X$C".toList, "p/B".toList]) ∧
    rename? "Lp/A<Lp/B;>.C;" "p/A$C" "p/A$D" = none ∧
    bareSignature.Valid ∧ bareSignature.text = "<T:LFoo:Lp/Old;>Lp/Base;".toList ∧
    bareSignature.denoted = ["p/Old".toList, "p/Base".toList] ∧
    rename? "<T:LFoo:Lp/Old;>Lp/Base;" "p/Old" "p/X" = none := by
  refine ⟨⟨inner_signature_valid, by decide, by decide⟩, ⟨by decide, ?_⟩, by decide, ?_, by decide, by decide,
    by decide⟩
  · exact ⟨innerSignature.rename "p/A".toList "p/X".toList, inner_signature_valid.rename _ _ (by decide),
      by decide, by decide⟩
  · refine ⟨fun ps member => ?_, .inl ⟨_, List.cons_ne_nil _ [], rfl, by decide⟩⟩
    obtain rfl := Option.some.inj member
    exact ⟨by decide, by decide⟩

end Signature

end JvmEdit
