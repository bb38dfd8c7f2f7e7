import JvmEdit.Pass.Remover
import JvmEdit.Proofs.Hierarchy.Links
import JvmEdit.Proofs.Hierarchy.Inheritance
import JvmEdit.Proofs.Index.Session
import JvmEdit.Proofs.Pass.Run
import JvmEdit.Proofs.References.Relocation
import JvmEdit.Proofs.References.Sound
set_option autoImplicit false

namespace JvmEdit

structure MethodUse where
  owner : String
  name : String
  descriptor : String
  deriving DecidableEq, Repr

-- A handle names a method unless it reads or writes a field.
def Constant.methodUse? : Constant → Option MethodUse
  | .methodHandle kind owner name descriptor _ =>
      if kind ≤ HiddenUses.lastFieldKind then none else some ⟨owner, name, descriptor⟩
  | _ => none

def Operand.methodUse? : Operand → Option MethodUse
  | .call c => some ⟨c.owner, c.name, c.descriptor⟩
  | .constant value => value.methodUse?
  | _ => none

-- Code or a bootstrap method of the program names the method.
inductive Program.UsesMethod (p : Program) (u : MethodUse) : Prop
  | code (id : MethodId) (m : Method) (i : Instruction) (live : p.method? id = some m)
      (member : i ∈ m.code.toList) (names : i.operand.methodUse? = some u)
  | bootstrap (id : ClassId) (c : Class) (b : BootstrapMethod) (value : Constant)
      (live : p.class? id = some c) (member : b ∈ c.bootstrapMethods)
      (part : value ∈ b.handle :: b.arguments) (names : value.methodUse? = some u)

namespace HiddenUses

def Hides (h : HiddenUses) (u : MethodUse) : Prop := (u.name, u.descriptor) ∈ h.methods

-- A step of the collection that forgets no method.
def Grows {α : Type} (f : HiddenUses → α → HiddenUses) : Prop :=
  ∀ h x, h.methods ⊆ (f h x).methods

section Folds

variable {α : Type} (f : HiddenUses → α → HiddenUses) (grows : Grows f)

include grows

theorem grows_foldl : Grows fun h (xs : List α) => xs.foldl f h := by
  intro h xs
  induction xs generalizing h with
  | nil => exact List.Subset.refl _
  | cons x xs ih => exact List.Subset.trans (grows h x) (ih (f h x))

theorem hides_foldl (u : MethodUse) (h : HiddenUses) (xs : List α) (x : α) (member : x ∈ xs)
    (adds : ∀ h, (f h x).Hides u) : (xs.foldl f h).Hides u := by
  induction xs generalizing h with
  | nil => cases member
  | cons y xs ih =>
      rcases List.mem_cons.mp member with isHead | later
      · subst isHead
        exact grows_foldl f grows (f h x) xs (adds h)
      · exact ih (f h y) later

end Folds

theorem grows_add_handle : Grows addHandle := by
  intro h value
  unfold addHandle
  split
  · split
    · exact List.Subset.refl _
    · exact List.subset_cons_self _ _
  · exact List.Subset.refl _

theorem grows_add_operand (p : Program) (context : ClassId) : Grows (addOperand p context) := by
  intro h operand
  unfold addOperand
  split
  · exact grows_add_handle h _
  · split <;> exact List.Subset.refl _
  · split
    · exact List.Subset.refl _
    · exact List.subset_cons_self _ _
  · exact List.Subset.refl _

theorem grows_add_method (p : Program) : Grows (addMethod p) := by
  intro h m
  exact grows_foldl (fun h (i : Instruction) => addOperand p m.owner h i.operand)
    (fun h i => grows_add_operand p m.owner h i.operand) h m.code.toList

theorem grows_add_bootstrap : Grows addBootstrap := by
  intro h b
  exact List.Subset.trans (grows_add_handle h b.handle) (grows_foldl addHandle grows_add_handle _ b.arguments)

theorem grows_add_class : Grows addClass := fun h c =>
  grows_foldl addBootstrap grows_add_bootstrap h c.bootstrapMethods

theorem hides_add_handle (h : HiddenUses) (value : Constant) (u : MethodUse)
    (names : value.methodUse? = some u) : (h.addHandle value).Hides u := by
  cases value with
  | methodHandle kind owner name descriptor isInterface =>
      obtain ⟨called, same⟩ := Option.ite_none_left_eq_some.mp names
      cases same
      rw [addHandle, if_neg called]
      exact List.mem_cons_self
  | _ => cases names

theorem hides_add_bootstrap (h : HiddenUses) (b : BootstrapMethod) (value : Constant) (u : MethodUse)
    (part : value ∈ b.handle :: b.arguments) (names : value.methodUse? = some u) :
    (h.addBootstrap b).Hides u :=
  hides_foldl addHandle grows_add_handle u h (b.handle :: b.arguments) value part
    fun h => hides_add_handle h value u names

variable (p : Program)

theorem hides_of_bootstrap (id : ClassId) (c : Class) (b : BootstrapMethod) (value : Constant)
    (u : MethodUse) (live : p.class? id = some c) (member : b ∈ c.bootstrapMethods)
    (part : value ∈ b.handle :: b.arguments) (names : value.methodUse? = some u) :
    (ofProgram p).Hides u := by
  have row : c ∈ p.classes.values :=
    List.mem_map.mpr ⟨(id, c), Table.mem_of_find p.classes.toList id c live, rfl⟩
  apply hides_foldl addClass grows_add_class u _ _ c row
  intro h
  apply hides_foldl addBootstrap grows_add_bootstrap u _ _ b member
  intro h
  exact hides_add_bootstrap h b value u part names

theorem hides_or_names (id : MethodId) (m : Method) (i : Instruction) (u : MethodUse)
    (live : p.method? id = some m) (member : i ∈ m.code.toList)
    (names : i.operand.methodUse? = some u) : (ofProgram p).Hides u ∨
      ∃ call target, i.operand = .call call ∧ u = ⟨call.owner, call.name, call.descriptor⟩ ∧
        p.lookup? (some m.owner) i.operand = some (.method target) ∧
        p.findMethodKey? call.key = some target := by
  have row : m ∈ p.methods.values :=
    List.mem_map.mpr ⟨(id, m), Table.mem_of_find p.methods.toList id m live, rfl⟩
  have collected : (∀ h, (addOperand p m.owner h i.operand).Hides u) → (ofProgram p).Hides u := by
    intro adds
    apply grows_foldl addClass grows_add_class
    apply hides_foldl (addMethod p) (grows_add_method p) u _ _ m row
    intro h
    exact hides_foldl (fun h (i : Instruction) => addOperand p m.owner h i.operand)
      (fun h i => grows_add_operand p m.owner h i.operand) u h _ i member adds
  cases isOperand : i.operand with
  | constant value =>
      rw [isOperand] at names collected
      exact Or.inl (collected fun h => hides_add_handle h value u names)
  | call call =>
      rw [isOperand] at names collected
      cases names
      cases found : p.findMethodKey? call.key with
      | none =>
          have unnamed : p.lookup? (some m.owner) (.call call) = none := by
            rw [Program.lookup?, found]
            rfl
          refine Or.inl (collected fun h => ?_)
          simp only [addOperand, unnamed]
          exact List.mem_cons_self
      | some target =>
          refine Or.inr ⟨call, target, rfl, rfl, ?_, found⟩
          rw [Program.lookup?, found]
          rfl
  | _ =>
      rw [isOperand] at names
      cases names

end HiddenUses

namespace Program

-- What is left once some methods are taken out: the others as they were, but for the records of calls
-- that went with their callers. No method with a hidden use is among those taken out.
structure Trimmed (p : Program) (uses : HiddenUses) (q : Program) : Prop where
  indexed : q.Indexed
  links : SameLinks p q
  bootstraps : ∀ c, (q.class? c).map (·.bootstrapMethods) = (p.class? c).map (·.bootstrapMethods)
  methods : ∀ id m', q.method? id = some m' → ∃ m, p.method? id = some m ∧ m'.bare = m.bare
  calls : ∀ id ref, (q.method? ref.method).isSome → p.Holds (.method id) ref → q.Holds (.method id) ref
  spared : ∀ id m, p.method? id = some m → uses.hasMethod m = true → (q.method? id).isSome

theorem trimmed_refl (p : Program) (uses : HiddenUses) (indexed : p.Indexed) : p.Trimmed uses p where
  indexed := indexed
  links := .refl p
  bootstraps := fun _ => rfl
  methods := fun _ m live => ⟨m, live, rfl⟩
  calls := fun _ _ _ held => held
  spared := fun _ _ live _ => by rw [live]; rfl

theorem holds_live (p : Program) (id : MethodId) (ref : InsnRef) (held : p.Holds (.method id) ref) :
    ∃ m, p.method? id = some m ∧ ref ∈ m.invocations := by
  rw [Holds, records] at held
  cases live : p.method? id with
  | none =>
      rw [live] at held
      exact absurd held (OrderedSet.not_mem_empty ref)
  | some m =>
      rw [live] at held
      exact ⟨m, rfl, held⟩

-- A program without one of its methods, whose own instructions are forgotten.
def withoutMethod (p : Program) (id : MethodId) (m : Method) (owner : String) : Program :=
  (p.forgetReferences id m.owner).detachMethod id m.owner (Key.method owner m.name m.descriptor)

section Without

variable (p : Program) (id : MethodId) (m : Method) (owner : String)

theorem delete_method_uncalled [Libraries] (live : p.method? id = some m)
    (loaded : p.className? m.owner = some owner) (uncalled : m.invocations.isEmpty = true) :
    p.deleteMethod id = .ok ⟨p.withoutMethod id m owner, []⟩ := by
  have none : m.invocations.toList = [] := by
    rw [OrderedSet.toList, List.isEmpty_iff.mp uncalled]
    rfl
  rw [delete_method_eq p id m owner live loaded, none]
  rfl

theorem indexed_without_method (indexed : p.Indexed) (live : p.method? id = some m)
    (loaded : p.className? m.owner = some owner) : (p.withoutMethod id m owner).Indexed := by
  have same := same_names_forget_references p id m.owner
  have naming := same.methods id
  rw [methodNaming?, methodNaming?, live] at naming
  obtain ⟨left, leftFound, leftNaming⟩ := Option.map_eq_some_iff.mp naming
  have owner_eq : left.owner = m.owner := congrArg MethodNaming.owner leftNaming
  have name_eq : left.name = m.name := congrArg MethodNaming.name leftNaming
  have descriptor_eq : left.descriptor = m.descriptor := congrArg MethodNaming.descriptor leftNaming
  have detached := indexed_detach_method _ id left owner (indexed_same_names p _ same indexed) leftFound
    (by rw [owner_eq, same.class_name, loaded])
  rwa [owner_eq, name_eq, descriptor_eq] at detached

theorem same_links_without_method : SameLinks p (p.withoutMethod id m owner) := by
  have unindexed := (same_links_forget_references p id m.owner).trans
    (same_links_unindex_method _ id (some owner) m.name m.descriptor)
  exact unindexed.trans ((same_links_unlist_method _ id m.owner).trans (same_links_erase_method _ id))

theorem method?_without_method (other : MethodId) :
    ((p.withoutMethod id m owner).method? other).map Method.bare =
      if id = other then none else (p.method? other).map Method.bare := by
  rw [withoutMethod, method?_detach_method, apply_ite (Option.map Method.bare),
    method?_of_bare p _ (bare_forget_references p id m.owner)]
  rfl

theorem bootstraps_without_method (c : ClassId) :
    ((p.withoutMethod id m owner).class? c).map (·.bootstrapMethods) =
      (p.class? c).map (·.bootstrapMethods) := by
  have unlisted := class?_update_class ((p.forgetReferences id m.owner).updateIndex
    (·.eraseMethod (Key.method owner m.name m.descriptor) id)) m.owner c
    fun k => { k with methods := k.methods.filter (· ≠ id) }
  have same : ((p.withoutMethod id m owner).class? c).map (·.bootstrapMethods) =
      ((p.forgetReferences id m.owner).class? c).map (·.bootstrapMethods) := by
    refine (congrArg (Option.map _) unlisted).trans ?_
    split
    · exact Option.map_map ..
    · rfl
  have header := class?_of_bare p _ (bare_forget_references p id m.owner) c
  have bootstraps := congrArg (Option.map (·.bootstrapMethods)) header
  rw [Option.map_map, Option.map_map] at bootstraps
  exact same.trans bootstraps

theorem holds_without_method (other : MethodId) (ref : InsnRef) (apart : other ≠ id)
    (elsewhere : ref.method ≠ id) (held : p.Holds (.method other) ref) :
    (p.withoutMethod id m owner).Holds (.method other) ref := by
  have differ : Target.method other ≠ .method id := fun same => apart (Target.method.inj same)
  rw [withoutMethod, Holds, records_detach_method, if_neg differ]
  exact holds_forget_references_other p id m.owner _ ref elsewhere held

end Without

section Delete

variable (p q : Program) (uses : HiddenUses) (trimmed : p.Trimmed uses q)

include trimmed

theorem trimmed_without_method (id : MethodId) (m : Method) (owner : String)
    (live : q.method? id = some m) (loaded : q.className? m.owner = some owner)
    (uncalled : m.invocations.isEmpty = true) (unnamed : uses.hasMethod m = false) :
    p.Trimmed uses (q.withoutMethod id m owner) := by
  have rows := method?_without_method q id m owner
  have left : ∀ other, ((q.withoutMethod id m owner).method? other).isSome →
      id ≠ other ∧ (q.method? other).isSome := by
    intro other stays
    have row := congrArg Option.isSome (rows other)
    rw [Option.isSome_map, stays] at row
    by_cases same : id = other
    · rw [if_pos same] at row
      cases row
    · rw [if_neg same, Option.isSome_map] at row
      exact ⟨same, row.symm⟩
  constructor
  · exact indexed_without_method q id m owner trimmed.indexed live loaded
  · exact trimmed.links.trans (same_links_without_method q id m owner)
  · intro c
    exact (bootstraps_without_method q id m owner c).trans (trimmed.bootstraps c)
  · intro other m' stays
    have row := rows other
    rw [stays] at row
    obtain ⟨_, kept⟩ := Option.ite_none_left_eq_some.mp row.symm
    obtain ⟨before, liveBefore, same⟩ := Option.map_eq_some_iff.mp kept
    obtain ⟨start, liveStart, unchanged⟩ := trimmed.methods other before liveBefore
    exact ⟨start, liveStart, same.symm.trans unchanged⟩
  · intro other ref stays held
    obtain ⟨elsewhere, liveCaller⟩ := left ref.method stays
    have recorded := trimmed.calls other ref liveCaller held
    refine holds_without_method q id m owner other ref ?_ (Ne.symm elsewhere) recorded
    -- A method with a call in its records is not the one that goes.
    intro same
    subst same
    obtain ⟨m', live', called⟩ := holds_live q other ref recorded
    cases live.symm.trans live'
    rw [OrderedSet.mem_def, List.isEmpty_iff.mp uncalled] at called
    cases called
  · intro other before liveBefore named
    have kept := trimmed.spared other before liveBefore named
    have apart : id ≠ other := by
      intro same
      subst same
      obtain ⟨start, liveStart, unchanged⟩ := trimmed.methods id m live
      cases liveBefore.symm.trans liveStart
      have sameNames : m.bare.naming = before.bare.naming := congrArg Method.naming unchanged
      have sameUse : uses.hasMethod m = uses.hasMethod before :=
        congrArg (fun n : MethodNaming => uses.methods.contains (n.name, n.descriptor)) sameNames
      rw [sameUse, named] at unnamed
      cases unnamed
    have row := congrArg Option.isSome (rows other)
    rw [if_neg apart, Option.isSome_map, Option.isSome_map] at row
    exact row.trans kept

end Delete

end Program

namespace Remover

-- The hidden uses are those of the program that a run starts from, whether they have been found by now
-- or not, and what the run has left of that program is trimmed.
structure Trims (p : Program) (hidden : Option HiddenUses) (c : PassContext) : Prop where
  settled : hidden.getD (.ofProgram c.program) = .ofProgram p
  trimmed : p.Trimmed (.ofProgram p) c.program

variable (p : Program) (c : PassContext)

theorem yields_settle (hidden : Option HiddenUses) (trims : Trims p hidden c) :
    Yields (settle hidden) c fun uses c' => uses = .ofProgram p ∧ Trims p (some uses) c' := by
  have settled := trims.settled
  cases hidden with
  | some uses => exact yields_pure uses c _ ⟨settled, settled, trims.trimmed⟩
  | none =>
      refine yields_bind _ _ c (fun q c' => c' = c ∧ q = c.program) _ ?_ ?_
      · exact Work.yields_program _ ⟨rfl, rfl⟩
      · intro q c' ⟨same, isProgram⟩
        subst same isProgram
        exact yields_pure _ c' _ ⟨settled, settled, trims.trimmed⟩

theorem yields_delete_method [Libraries] (uses : HiddenUses) (id : MethodId) (m : Method)
    (trims : Trims p (some uses) c) (live : c.program.method? id = some m)
    (uncalled : m.invocations.isEmpty = true) (unnamed : uses.hasMethod m = false) :
    Yields (Work.edit (·.deleteMethod id)) c fun _ c' => Trims p (some uses) c' := by
  have settled : uses = .ofProgram p := trims.settled
  subst settled
  obtain ⟨owner, loaded⟩ := trims.trimmed.indexed.is_owned.methods id m live
  have done := Program.delete_method_uncalled c.program id m owner live loaded uncalled
  have without := Program.trimmed_without_method p c.program _ trims.trimmed id m owner live loaded
    uncalled unnamed
  have target : c.methodTarget? id = some (.method owner m.name m.descriptor) := by
    rw [PassContext.methodTarget?, live, Option.bind_some, loaded]
    rfl
  let c' := (c.accept ⟨c.program.withoutMethod id m owner, []⟩).record
    (.method owner m.name m.descriptor) "deleted"
  refine Work.yields_edit _ c' _ ?_ ⟨rfl, without⟩
  rw [PassContext.deleteMethod, target]
  dsimp only
  rw [done]
  rfl

theorem yields_visit [Libraries] (hidden : Option HiddenUses) (id : MethodId) (trims : Trims p hidden c)
    (goes : Program → HiddenUses → Bool)
    (unused : ∀ q uses, goes q uses = true → ∃ m, q.method? id = some m ∧
      m.invocations.isEmpty = true ∧ uses.hasMethod m = false) :
    Yields (do
      let uses ← settle hidden
      let q ← Work.program
      if goes q uses then Work.edit (·.deleteMethod id)
      return some uses) c (Trims p) := by
  refine yields_bind _ _ c _ _ (yields_settle p c hidden trims) ?_
  intro uses c ⟨isSettled, trims⟩
  refine yields_bind _ _ c (fun q c' => c' = c ∧ q = c.program) _ ?_ ?_
  · exact Work.yields_program _ ⟨rfl, rfl⟩
  · intro q c' ⟨same, isProgram⟩
    subst same isProgram
    split
    · rename_i isUnused
      obtain ⟨m, live, uncalled, unnamed⟩ := unused c'.program uses isUnused
      refine yields_bind _ _ c' _ _ (yields_delete_method p c' uses id m trims live uncalled unnamed) ?_
      intro _ c trims
      exact yields_pure _ c _ trims
    · exact yields_pure _ c' _ trims

theorem yields_visit_method [Libraries] (hidden : Option HiddenUses) (id : MethodId)
    (trims : Trims p hidden c) : Yields (visitMethod hidden id) c (Trims p) := by
  refine yields_visit p c hidden id trims (fun q uses => (q.method? id).any (isUnusedMethod uses) &&
    !q.isEntryPoint id && !q.inOverrideFamily id) ?_
  intro q uses goes
  simp only [Bool.and_eq_true] at goes
  obtain ⟨m, live, isUnused⟩ := (Option.any_eq_true _ _).mp goes.1.1
  simp only [isUnusedMethod, Bool.and_eq_true, Bool.not_eq_true'] at isUnused
  exact ⟨m, live, isUnused.1.1.1, isUnused.2⟩

theorem yields_visit_abstract [Libraries] (hidden : Option HiddenUses) (id : MethodId)
    (trims : Trims p hidden c) : Yields (visitAbstract hidden id) c (Trims p) := by
  refine yields_visit p c hidden id trims (fun q uses => (q.method? id).any (isUnusedAbstract q uses)) ?_
  intro q uses goes
  obtain ⟨m, live, isUnused⟩ := (Option.any_eq_true _ _).mp goes
  simp only [isUnusedAbstract, Bool.and_eq_true, Bool.not_eq_true'] at isUnused
  exact ⟨m, live, isUnused.1.1.2, isUnused.1.2⟩

end Remover

namespace Pass

-- The removers of methods, with the hidden uses found so far.
inductive RemovesMethods : Pass → Option HiddenUses → Prop
  | unused (hidden : Option HiddenUses) : RemovesMethods (.unusedMethodRemover hidden) hidden
  | «abstract» (hidden : Option HiddenUses) : RemovesMethods (.abstractMethodRemover hidden) hidden

section Remove

variable (p : Program) (pass : Pass) (c : PassContext)

-- The pass removes methods, and all that it has done so far is to trim the program.
def Trims (pass : Pass) (c : PassContext) : Prop :=
  ∃ hidden, pass.RemovesMethods hidden ∧ Remover.Trims p hidden c

theorem trims_visit [Libraries] (node : Node) (trims : Trims p pass c) :
    Yields (pass.visit node) c (Trims p) := by
  obtain ⟨hidden, removes, trims⟩ := trims
  cases removes with
  | unused hidden =>
      cases node with
      | method id =>
          refine yields_bind _ _ c _ _ (Remover.yields_visit_method p c hidden id trims) ?_
          intro settled c trims
          exact yields_pure _ c _ ⟨settled, .unused settled, trims⟩
      | _ => exact yields_pure _ c _ ⟨hidden, .unused hidden, trims⟩
  | «abstract» hidden =>
      cases node with
      | method id =>
          refine yields_bind _ _ c _ _ (Remover.yields_visit_abstract p c hidden id trims) ?_
          intro settled c trims
          exact yields_pure _ c _ ⟨settled, .abstract settled, trims⟩
      | _ => exact yields_pure _ c _ ⟨hidden, .abstract hidden, trims⟩

theorem trims_finish [Libraries] (trims : Trims p pass c) : Yields pass.finish c (Trims p) := by
  have keeps : pass.finish = pure pass := by
    obtain ⟨hidden, removes, _⟩ := trims
    cases removes <;> rfl
  rw [keeps]
  exact yields_pure pass c _ trims

theorem trimmed_run [Libraries] (indexed : p.Indexed) (removes : pass.RemovesMethods none)
    (start : c.program = p) : Yields pass.run c fun _ after => p.Trimmed (.ofProgram p) after.program := by
  subst start
  have trims : Trims c.program pass c := ⟨none, removes, rfl, Program.trimmed_refl _ _ indexed⟩
  refine yields_mono _ c _ _ (yields_run pass c (Trims c.program) trims ?_ ?_) ?_
  · exact fun pass c' node reached => trims_visit c.program pass c' node reached
  · exact fun pass c' reached => trims_finish c.program pass c' reached
  · intro _ after ⟨_, _, reached⟩
    exact reached.trimmed

end Remove

end Pass

end JvmEdit
