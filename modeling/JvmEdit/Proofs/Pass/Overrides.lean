import JvmEdit.Libraries.Standard
import JvmEdit.Proofs.Hierarchy.Inheritance
import JvmEdit.Proofs.Pass.Callees
set_option autoImplicit false

namespace JvmEdit

namespace Program

variable (p : Program)

-- A call on one method, with a receiver of the class `d`, runs the other one.
structure Dispatches (runs named : MethodId) (m n : Method) (d : ClassId) : Prop where
  live : p.method? runs = some m
  liveNamed : p.method? named = some n
  apart : named ≠ runs
  sameName : n.name = m.name
  sameDescriptor : n.descriptor = m.descriptor
  onInstance : m.access.isStatic = false ∧ n.access.isStatic = false
  usual : m.isConstructor = false ∧ n.isConstructor = false
  receiver : p.Inherited (p.methodIn? m.name m.descriptor) d runs
  declared : p.Supertype d n.owner

-- Nothing about the class of a method or the supertypes and subtypes of it gives away that a call may
-- come to the method under another declaration.
def Overlooked (m : Method) : Prop :=
  m.name.startsWith "<" = true ∨ (rootMethods.contains (m.name, m.descriptor) = false ∧
    ¬p.UnknownAbove m.owner ∧ ∀ c, p.Supertype m.owner c ∨ p.Supertype c m.owner →
      p.methodIn? m.name m.descriptor c = none)

section Indexed

variable (indexed : p.Indexed)

include indexed

theorem declares_iff (id : MethodId) (m : Method) (live : p.method? id = some m) (c : ClassId) :
    p.declares m.name m.descriptor c = true ↔ (p.methodIn? m.name m.descriptor c).isSome := by
  rw [declares]
  cases loaded : p.className? c with
  | none =>
      rw [className?, Option.map_eq_none_iff] at loaded
      simp [methodIn?, loaded]
  | some owner =>
      rw [Option.any_some, Option.isSome_iff_exists, Option.isSome_iff_exists]
      constructor
      · intro indexes
        obtain ⟨i, found⟩ := indexes
        exact ⟨i, method_in?_called p indexed ⟨owner, m.name, m.descriptor, false, .virtual⟩ c i
          ⟨indexed.plain_owner p c owner loaded, indexed.plain_method_name p id m live⟩
          ((indexed.classNames owner c).mpr loaded) found⟩
      · intro present
        obtain ⟨i, has⟩ := present
        have named := (p.method_in?_iff indexed m.name m.descriptor c i).mp has
        refine ⟨i, (indexed.methods.inverse _ i).mpr ?_⟩
        change p.methodKey? i = _
        rw [method_key_eq, named, Option.bind_some, loaded]
        rfl

theorem in_override_family_iff (exactly : p.ExactHierarchy) (id : MethodId) (m : Method)
    (live : p.method? id = some m) (onInstance : m.access.isStatic = false) :
    p.inOverrideFamily id = true ↔ ¬p.Overlooked m := by
  rw [inOverrideFamily, live, Overlooked]
  dsimp only
  rw [onInstance, Bool.false_or]
  cases special : m.name.startsWith "<" with
  | true => simp
  | false =>
      have above : (p.ancestors m.owner).toList.any (p.declares m.name m.descriptor) = true ↔
          ∃ c, p.Supertype m.owner c ∧ (p.methodIn? m.name m.descriptor c).isSome := by
        simp only [List.any_eq_true, OrderedSet.mem_to_list, p.mem_ancestors exactly.indexed,
          p.declares_iff indexed id m live]
      have below : (p.descendants m.owner).toList.any (p.declares m.name m.descriptor) = true ↔
          ∃ c, p.Supertype c m.owner ∧ (p.methodIn? m.name m.descriptor c).isSome := by
        simp only [List.any_eq_true, OrderedSet.mem_to_list,
          p.mem_descendants exactly.indexed exactly.linked, p.declares_iff indexed id m live]
      rw [if_neg Bool.false_ne_true, Bool.or_eq_true, Bool.or_eq_true, Bool.or_eq_true, above, below,
        p.has_unknown_ancestor_iff exactly.indexed]
      constructor
      · intro noticed overlooked
        rcases overlooked with special | ⟨ordinary, known, unseen⟩
        · cases special
        · rcases noticed with ((root | unknown) | ⟨c, supertype, has⟩) | ⟨c, subtype, has⟩
          · rw [ordinary] at root
            cases root
          · exact known unknown
          · rw [unseen c (.inl supertype)] at has
            cases has
          · rw [unseen c (.inr subtype)] at has
            cases has
      · intro noticed
        by_contra missed
        rw [not_or, not_or, not_or] at missed
        obtain ⟨⟨⟨ordinary, known⟩, above⟩, below⟩ := missed
        apply noticed
        refine .inr ⟨Bool.eq_false_iff.mpr ordinary, known, ?_⟩
        intro c related
        rw [← Option.not_isSome_iff_eq_none]
        intro has
        rcases related with supertype | subtype
        · exact above ⟨c, supertype, has⟩
        · exact below ⟨c, subtype, has⟩

-- The method that a receiver runs is kept unless it is overlooked, and it is overlooked only if the two
-- declarations meet in a subclass of the one that is neither supertype nor subtype of the other.
theorem in_override_family_or_overlooked (exactly : p.ExactHierarchy) (runs named : MethodId)
    (m n : Method) (d : ClassId) (dispatches : p.Dispatches runs named m n d) :
    (p.inOverrideFamily runs = true ↔ ¬p.Overlooked m) ∧
      (p.Overlooked m → m.name.startsWith "<" = true ∨
        d ≠ m.owner ∧ ¬p.Supertype m.owner n.owner ∧ ¬p.Supertype n.owner m.owner) := by
  refine ⟨p.in_override_family_iff indexed exactly runs m dispatches.live dispatches.onInstance.1, ?_⟩
  intro overlooked
  rcases overlooked with special | ⟨_, _, unseen⟩
  · exact .inl special
  · have has : p.methodIn? m.name m.descriptor n.owner = some named := by
      rw [p.method_in?_iff indexed, methodNaming?, dispatches.liveNamed, ← dispatches.sameName,
        ← dispatches.sameDescriptor]
      rfl
    have apart : ¬(p.Supertype m.owner n.owner ∨ p.Supertype n.owner m.owner) := by
      intro related
      have none := unseen n.owner related
      rw [has] at none
      cases none
    rw [not_or] at apart
    refine .inr ⟨?_, apart⟩
    intro own
    exact apart.1 (own ▸ dispatches.declared)

end Indexed

end Program

namespace Session

-- A class, or an interface if the extra flags say so, with a method of its own or none.
def loadClass (name superName : String) (interfaces methods : List String) (flags : Flags) :
    List SessionAction :=
  let access := Flags.publicFlag.union flags
  let method (name : String) : ClassEvent :=
    .method ⟨name, "()V", none, access.without .interfaceFlag, [], []⟩
  [.visit 0 (.header ⟨name, some superName, interfaces, none, access, 52, [], []⟩)] ++
    methods.map (fun name => .visit 0 (method name)) ++ [.visit 0 .classEnd]

-- A class that overrides the method of its superclass.
def overriding : List SessionAction :=
  [.openBuilder] ++ loadClass "Base" "java/lang/Object" [] ["m"] default ++
    loadClass "Child" "Base" [] ["m"] default

-- A call on the method of the superclass runs the other one, which is kept.
theorem in_override_family_overriding :
    let p := ready {} overriding
    (p.Indexed ∧ p.ExactHierarchy ∧ ∃ m n, p.Dispatches ⟨4⟩ ⟨2⟩ m n ⟨3⟩ ∧
      (p.inOverrideFamily ⟨4⟩ = true ↔ ¬p.Overlooked m)) ∧ p.inOverrideFamily ⟨4⟩ = true := by
  intro p
  have plain : ∀ action ∈ overriding, action.PlainLoad := by decide
  have legal := class_names_legal_of_rows ((start {}).run overriding).program (by decide)
  have linked : p.ExactHierarchy := exact_hierarchy_ready {} overriding plain legal
  have indexed : p.Indexed := (bound_complete_ready {} overriding plain).1.indexed
  let m := (p.method? ⟨4⟩).get (by decide +kernel)
  let n := (p.method? ⟨2⟩).get (by decide +kernel)
  have dispatches : p.Dispatches ⟨4⟩ ⟨2⟩ m n ⟨3⟩ := {
    live := (Option.some_get _).symm
    liveNamed := (Option.some_get _).symm
    apart := by decide
    sameName := by decide +kernel
    sameDescriptor := by decide +kernel
    onInstance := by decide +kernel
    usual := by decide +kernel
    receiver := .own (by decide +kernel)
    declared := .single ⟨.superclass, by decide +kernel⟩ }
  have recognised := p.in_override_family_or_overlooked indexed linked ⟨4⟩ ⟨2⟩ m n ⟨3⟩ dispatches
  exact ⟨⟨indexed, linked, m, n, dispatches, recognised.1⟩, by decide +kernel⟩

-- A class that implements an interface with the method of its superclass.
def implementing : List SessionAction :=
  [.openBuilder] ++ loadClass "Worker" "java/lang/Object" [] ["m"] default ++
    loadClass "Task" "java/lang/Object" [] ["m"] (Flags.interfaceFlag.union .abstractFlag) ++
    loadClass "Job" "Worker" ["Task"] [] default

-- A call on the method of the interface runs the one of the superclass, which is not kept.
theorem in_override_family_implementing :
    let p := ready {} implementing
    p.Indexed ∧ p.ExactHierarchy ∧ (∃ m n, p.Dispatches ⟨2⟩ ⟨4⟩ m n ⟨5⟩) ∧
      p.inOverrideFamily ⟨2⟩ = false ∧ p.isEntryPoint ⟨2⟩ = false := by
  intro p
  have plain : ∀ action ∈ implementing, action.PlainLoad := by decide
  have legal := class_names_legal_of_rows ((start {}).run implementing).program (by decide)
  have linked : p.ExactHierarchy := exact_hierarchy_ready {} implementing plain legal
  have indexed : p.Indexed := (bound_complete_ready {} implementing plain).1.indexed
  let m := (p.method? ⟨2⟩).get (by decide +kernel)
  let n := (p.method? ⟨4⟩).get (by decide +kernel)
  have dispatches : p.Dispatches ⟨2⟩ ⟨4⟩ m n ⟨5⟩ := {
    live := (Option.some_get _).symm
    liveNamed := (Option.some_get _).symm
    apart := by decide
    sameName := by decide +kernel
    sameDescriptor := by decide +kernel
    onInstance := by decide +kernel
    usual := by decide +kernel
    receiver := .taken (d := ⟨1⟩) (by decide +kernel) (by decide +kernel) (.own (by decide +kernel))
    declared := .single ⟨.interface, by decide +kernel⟩ }
  exact ⟨indexed, linked, ⟨m, n, dispatches⟩, by decide +kernel, by decide +kernel⟩

end Session

end JvmEdit
