import JvmEdit.Libraries.Standard
import JvmEdit.Proofs.References.Sweeps
set_option autoImplicit false

namespace JvmEdit

-- The call with a class of that name and kind as its owner.
def Call.onto (call : Call) (goal : Class) : Call :=
  { call with owner := goal.name, isInterface := goal.access.isInterface }

namespace Program

-- The instruction at `ref` makes this call.
def Calls (p : Program) (ref : InsnRef) (call : Call) : Prop :=
  ∃ context, p.site? ref = some (context, .call call)

-- What is where once a method has been moved to the class `goal`.
structure MovedTo (p q : Program) (id : MethodId) (m : Method) (destination : ClassId) (goal : Class) :
    Prop where
  live : p.method? id = some m
  exists_goal : p.class? destination = some goal
  elsewhere : m.owner ≠ destination
  name : q.className? destination = some goal.name
  naming : q.methodNaming? id = some ⟨destination, m.name, m.descriptor⟩
  lists : ∀ c, q.classNaming? c = (p.classNaming? c).map fun naming => { naming with
    methods :=
      if c = destination then naming.methods ++ [id]
      else if c = m.owner then naming.methods.filter (· ≠ id)
      else naming.methods }
  callers : ∀ ref, ref.method ≠ id → q.site? ref =
    if p.Holds (.method id) ref then
      (p.site? ref).map fun site => (site.1, mapCall (·.onto goal) site.2)
    else p.site? ref
  own : ∀ ref, ref.method = id → q.site? ref = (p.site? ref).map fun site => (destination, site.2)
  given_up : ∀ owner, p.className? m.owner = some owner →
    q.findMethodKey? (Key.method owner m.name m.descriptor) = none

theorem MovedTo.calls_own {p q : Program} {id : MethodId} {m : Method} {destination : ClassId}
    {goal : Class} (moved : MovedTo p q id m destination goal) (ref : InsnRef) (own : ref.method = id)
    (call : Call) : q.Calls ref call ↔ p.Calls ref call := by
  rw [Calls, moved.own ref own, Calls]
  cases p.site? ref with
  | none => simp
  | some site => simp [Prod.ext_iff]

section Moved

variable (p q : Program) (id : MethodId) (destination : ClassId)

theorem moved_to (bound : p.Bound) (done : p.moveMethod id destination = .ok q) :
    ∃ m goal, MovedTo p q id m destination goal := by
  obtain ⟨m, owner, goal, moved, found, live, there, elsewhere, free, movedFound, movedNaming,
    rfl⟩ :=
    move_method_ok p q id destination bound.indexed.is_owned done
  have forgotten := forget_references_frame p id m.owner
  have invoked : ∀ ref, ref ∈ moved.invocations.toList ↔
      p.Holds (.method id) ref ∧ ref.method ≠ id := by
    intro ref
    rw [← holds_forget_references_iff p id m bound.sound found, OrderedSet.mem_to_list, Holds, records,
      movedFound]
    rfl
  let placed := ((p.forgetReferences id m.owner).detachMethod id m.owner
    (Key.method owner m.name m.descriptor)).placeMethod id destination
      (Key.method goal.name m.name m.descriptor) { moved with invocations := .empty }
  let followed := moved.invocations.toList.foldl (retarget · (mapCall (·.onto goal))) placed
  have names : SameNames placed (followed.resolveMethod id).1 :=
    (SameNames.foldl _ (fun r ref => same_names_retarget r _ ref) _ placed).trans
      (same_names_resolve_method followed id)
  have sites : ∀ ref, (followed.resolveMethod id).1.site? ref =
      if ref ∈ moved.invocations.toList then
        (placed.site? ref).map fun site => (site.1, mapCall (·.onto goal) site.2)
      else placed.site? ref := by
    intro ref
    rw [(same_sites_resolve_method followed id).sites]
    exact site?_retargets placed _ (by intro o; cases o <;> rfl) _ ref
  have placedLists : ∀ c, placed.classNaming? c = (p.classNaming? c).map fun naming => { naming with
      methods :=
        if c = destination then naming.methods ++ [id]
        else if c = m.owner then naming.methods.filter (· ≠ id)
        else naming.methods } := by
    intro c
    rw [class_naming?_moved_method _ m.owner c destination elsewhere,
      (same_names_forget_references p id m.owner).classes]
  refine ⟨m, goal, found, there, elsewhere, ?_, ?_, ?_, ?_, ?_, ?_⟩
  · change (followed.resolveMethod id).1.className? destination = _
    rw [names.class_name, class_name_eq, placedLists, classNaming?, there]
    rfl
  · change (followed.resolveMethod id).1.methodNaming? id = _
    rw [names.methods, methodNaming?, method?_place_method, if_pos rfl]
    have sameName : moved.name = m.name := congrArg MethodNaming.name movedNaming
    have sameDescriptor : moved.descriptor = m.descriptor := congrArg MethodNaming.descriptor movedNaming
    rw [← sameName, ← sameDescriptor]
    rfl
  · exact fun c => (names.classes c).trans (placedLists c)
  · intro ref other
    refine (sites ref).trans ?_
    rw [site?_place_method _ id destination _ _ ref other, site?_detach_method _ id m.owner _ ref other,
      forgotten.sites]
    by_cases held : p.Holds (.method id) ref
    · rw [if_pos ((invoked ref).mpr ⟨held, other⟩), if_pos held]
    · rw [if_neg fun member => held ((invoked ref).mp member).1, if_neg held]
  · intro ref isOwn
    refine (sites ref).trans ?_
    rw [if_neg fun member => ((invoked ref).mp member).2 isOwn, ← forgotten.sites, site?, site?,
      method?_place_method, isOwn, if_pos rfl, movedFound, Option.bind_some, Option.bind_some,
      Option.map_map]
    rfl
  · intro owner' live'
    cases live.symm.trans live'
    have held : (p.forgetReferences id m.owner).findMethodKey?
        (Key.method owner m.name m.descriptor) = some id := by
      rw [findMethodKey?, forgotten.index]
      exact (bound.indexed.find_method_key p id m owner _ found live).mpr rfl
    have differ : Key.method goal.name m.name m.descriptor ≠ Key.method owner m.name m.descriptor :=
      ne_of_free free ((bound.indexed.find_method_key p id m owner _ found live).mpr rfl)
    change (followed.resolveMethod id).1.findMethodKey? _ = none
    rw [findMethodKey?, names.index]
    change placed.findMethodKey? _ = none
    rw [find_method_key?_place, if_neg differ, find_method_key?_detach, if_pos ⟨rfl, held⟩]

end Moved

-- What moving a method comes to for the calls of it.
structure CallersFollow (p q : Program) (id : MethodId) (m : Method) (destination : ClassId)
    (goal : Class) : Prop where
  -- The instructions of other methods are recorded after the move if they were before.
  kept : ∀ ref, ref.method ≠ id → (q.Holds (.method id) ref ↔ p.Holds (.method id) ref)
  -- The method's own instructions are bound anew, so one that already carried its new key joins them.
  joined : ∀ ref, ref.method = id → ¬p.Holds (.method id) ref →
    (q.Holds (.method id) ref ↔
      ∃ call, p.Calls ref call ∧ call.key = Key.method goal.name m.name m.descriptor)
  redirected : ∀ ref, ref.method ≠ id → p.Holds (.method id) ref →
    ∃ call, p.Calls ref call ∧ q.Calls ref (call.onto goal)
  named : ∀ ref, q.Holds (.method id) ref → q.target? ref = some (.method id) ∧
    ∃ call, q.Calls ref call ∧ call.owner = goal.name ∧ call.name = m.name ∧
      call.descriptor = m.descriptor
  indexed : ∀ key, q.findMethodKey? key = some id ↔ key = Key.method goal.name m.name m.descriptor
  lists : ∀ c, q.classNaming? c = (p.classNaming? c).map fun naming => { naming with
    methods :=
      if c = destination then naming.methods ++ [id]
      else if c = m.owner then naming.methods.filter (· ≠ id)
      else naming.methods }

section Follow

variable (p q : Program) (id : MethodId) (destination : ClassId)

theorem Indexed.names_method_iff (indexed : p.Indexed) (m : Method) (owner : String)
    (found : p.method? id = some m) (live : p.className? m.owner = some owner) (ref : InsnRef) :
    p.target? ref = some (.method id) ↔
      ∃ call, p.Calls ref call ∧ call.key = Key.method owner m.name m.descriptor := by
  rw [target?_eq]
  constructor
  · intro named
    obtain ⟨⟨context, operand⟩, site, named⟩ := Option.bind_eq_some_iff.mp named
    obtain ⟨call, rfl, key⟩ := lookup?_method p context operand id named
    exact ⟨call, ⟨context, site⟩, (indexed.find_method_key p id m owner _ found live).mp key⟩
  · intro called
    obtain ⟨call, ⟨context, site⟩, key⟩ := called
    rw [site, Option.bind_some]
    change (p.findMethodKey? call.key).map Target.method = _
    rw [(indexed.find_method_key p id m owner _ found live).mpr key]
    rfl

variable (bound : p.Bound) (done : p.moveMethod id destination = .ok q)

include bound done

theorem callers_follow : ∃ m goal, p.method? id = some m ∧ p.class? destination = some goal ∧
    CallersFollow p q id m destination goal := by
  have boundNow := bound_move_method p q bound id destination done
  obtain ⟨m, goal, moved⟩ := moved_to p q id destination bound done
  obtain ⟨m', live, naming⟩ := Option.map_eq_some_iff.mp moved.naming
  have owner : m'.owner = destination := congrArg MethodNaming.owner naming
  have name : m'.name = m.name := congrArg MethodNaming.name naming
  have descriptor : m'.descriptor = m.descriptor := congrArg MethodNaming.descriptor naming
  have ownerLive : q.className? m'.owner = some goal.name := by rw [owner, moved.name]
  have names := boundNow.indexed.names_method_iff q id m' goal.name live ownerLive
  rw [name, descriptor] at names
  have held := holds_move_method_iff p q id destination bound done (.method id)
  refine ⟨m, goal, moved.live, moved.exists_goal, ?_, ?_, ?_, ?_, ?_, moved.lists⟩
  · intro ref other
    rw [held, if_neg other]
  · intro ref own _
    rw [held, if_pos own, names]
    simp only [moved.calls_own ref own]
  · intro ref other before
    obtain ⟨context, operand, site, named⟩ := bound.sound.site _ ref before
    obtain ⟨call, rfl, _⟩ := lookup?_method p context operand id named
    refine ⟨call, ⟨context, site⟩, context, ?_⟩
    rw [moved.callers ref other, if_pos before, site]
    rfl
  · intro ref after
    have named := boundNow.sound _ ref after
    obtain ⟨call, ⟨context, site⟩, key⟩ := (names ref).mp named
    have plain : Undotted call.owner ∧ Undotted call.name := boundNow.coded.plain ref context _ site
    have plainName : Undotted m.name := name ▸ boundNow.indexed.plain_method_name q id m' live
    have parts := Key.method_injective _ _ _ _ _ _ plain.1
      (boundNow.indexed.plain_owner q destination goal.name moved.name) plain.2 plainName key
    exact ⟨named, call, ⟨context, site⟩, parts⟩
  · intro key
    rw [boundNow.indexed.find_method_key q id m' goal.name key live ownerLive, name, descriptor]

theorem move_method_self_call (ref : InsnRef) (own : ref.method = id) (held : p.Holds (.method id) ref) :
    (∃ call, p.Calls ref call ∧ q.Calls ref call) ∧ q.target? ref = none ∧
      ¬q.Holds (.method id) ref := by
  obtain ⟨m, goal, moved⟩ := moved_to p q id destination bound done
  obtain ⟨owner, live⟩ := bound.indexed.is_owned.methods id m moved.live
  obtain ⟨call, called, key⟩ :=
    (bound.indexed.names_method_iff p id m owner moved.live live ref).mp (bound.sound _ ref held)
  have calledStill := (moved.calls_own ref own call).mpr called
  have unnamed : q.target? ref = none := by
    obtain ⟨context, site⟩ := calledStill
    rw [target?_eq, site, Option.bind_some]
    change (q.findMethodKey? call.key).map Target.method = none
    rw [key, moved.given_up owner live]
    rfl
  refine ⟨⟨call, called, calledStill⟩, unnamed, ?_⟩
  rw [holds_move_method_iff p q id destination bound done, if_pos own, unnamed]
  exact fun named => by cases named

end Follow

end Program

namespace Session

open Program

-- The calls of a method follow it to its new class, after any run of edits and with any loaded class
-- for its goal.
theorem move_method_follows [Libraries] (settings : Settings) (loads : List SessionAction)
    (edits : List MemberEdit)
    (plainLoads : ∀ action ∈ loads, action.PlainLoad) (plainEdits : ∀ e ∈ edits, e.Plain)
    (id : MethodId) (destination : ClassId) (q : Program)
    (done : (edits.foldl perform (resolved settings loads)).moveMethod id destination = .ok q) :
    let p := edits.foldl perform (resolved settings loads)
    ∃ m goal, p.method? id = some m ∧ p.class? destination = some goal ∧
      CallersFollow p q id m destination goal :=
  callers_follow _ q id destination
    (bound_edits _ edits (bound_resolved settings loads plainLoads) plainEdits) done

-- The called method goes to the class of its caller.
theorem move_method_follows_child : (∀ action ∈ baseAndChild, action.PlainLoad) ∧
    ∃ q, (resolved {} baseAndChild).moveMethod ⟨3⟩ ⟨4⟩ = .ok q ∧
      (resolved {} baseAndChild).Holds (.method ⟨3⟩) ⟨⟨5⟩, ⟨7⟩⟩ ∧
      q.Holds (.method ⟨3⟩) ⟨⟨5⟩, ⟨7⟩⟩ ∧ q.target? ⟨⟨5⟩, ⟨7⟩⟩ = some (.method ⟨3⟩) := by
  have plain : ∀ action ∈ baseAndChild, action.PlainLoad := by decide
  have held : (resolved {} baseAndChild).Holds (.method ⟨3⟩) ⟨⟨5⟩, ⟨7⟩⟩ := by decide
  obtain ⟨q, done⟩ := except_ok ((resolved {} baseAndChild).moveMethod ⟨3⟩ ⟨4⟩) (by decide +kernel)
  obtain ⟨m, goal, _, _, follow⟩ :=
    move_method_follows {} baseAndChild [] plain (by simp) ⟨3⟩ ⟨4⟩ q done
  have after := (follow.kept ⟨⟨5⟩, ⟨7⟩⟩ (by decide)).mpr held
  exact ⟨plain, q, done, held, after, (follow.named _ after).1⟩

-- A method whose code calls a method of its own name in another class, which has none.
def callsAway : List SessionAction :=
  let header (name : String) : ClassEvent :=
    .header ⟨name, some "java/lang/Object", [], none, default, 52, [], []⟩
  [.openBuilder, .visit 0 (header "Here"), .visit 0 (.method ⟨"m", "()V", none, default, [], []⟩),
    .visit 0 (.instruction 184 (.call ⟨"There", "m", "()V", false, .static⟩)), .visit 0 .classEnd,
    .visit 0 (header "There"), .visit 0 .classEnd]

-- Moved there, the method is what its own code calls, so it is recorded with a call that it was not
-- recorded with before.
theorem move_method_joined : (∀ action ∈ callsAway, action.PlainLoad) ∧
    ∃ q, (resolved {} callsAway).moveMethod ⟨2⟩ ⟨4⟩ = .ok q ∧
      ¬∀ ref, q.Holds (.method ⟨2⟩) ref ↔ (resolved {} callsAway).Holds (.method ⟨2⟩) ref := by
  have before : ¬(resolved {} callsAway).Holds (.method ⟨2⟩) ⟨⟨2⟩, ⟨3⟩⟩ := by decide
  refine ⟨by decide, _, rfl, fun same => before ((same ⟨⟨2⟩, ⟨3⟩⟩).mp ?_)⟩
  decide

end Session

namespace Program

-- The instruction at `ref` reads or writes a field so named.
def Uses (p : Program) (ref : InsnRef) (use : FieldUse) : Prop :=
  ∃ context, p.site? ref = some (context, .field use)

-- The instruction at `ref` comes to a field by this key: by its own, or if nothing stands under that,
-- by the key in the superclass of the class it stands in.
def ReachesBy (p : Program) (ref : InsnRef) (key : String) : Prop :=
  ∃ context use, p.site? ref = some (context, .field use) ∧
    (use.key = key ∨ p.findFieldKey? use.key = none ∧
      ∃ superName, p.super? context = some superName ∧ Key.field superName use.name = key)

-- Nothing is recorded anew or dropped, and what is recorded with the member names it still. Bodies
-- change in the operands of those instructions alone, and no row of another field changes at all.
structure Touches (p q : Program) (target : Target) (change : Operand → Operand) : Prop where
  recorded : ∀ other ref, q.Holds other ref ↔ p.Holds other ref
  named : ∀ ref, p.Holds target ref → q.target? ref = some target
  bodies : ∀ n, target ≠ .method n → q.method? n =
    (p.method? n).map (·.redirected (fun insn => p.Holds target ⟨n, insn⟩) change)
  fields : ∀ i, target ≠ .field i → q.field? i = p.field? i

structure FieldRenamed (p q : Program) (id : FieldId) (f : Field) (owner new : String) : Prop
    extends Touches p q (.field id) (mapFieldUse fun use => { use with name := new }) where
  uses : ∀ ref, p.Holds (.field id) ref → ∃ use, p.Uses ref use ∧ use.name = f.name ∧
    q.Uses ref { use with name := new }
  reached : ∀ ref, p.Holds (.field id) ref → q.ReachesBy ref (Key.field owner new)
  own : q.field? id = some { f with name := new }
  classes : q.classes = p.classes
  keyed : ∀ key, q.findFieldKey? key = some id ↔ key = Key.field owner new
  given_up : q.findFieldKey? (Key.field owner f.name) = none

structure MethodRenamed (p q : Program) (id : MethodId) (m : Method) (owner new : String) : Prop
    extends Touches p q (.method id) (mapCall fun call => { call with name := new }) where
  calls : ∀ ref, p.Holds (.method id) ref → ∃ call, p.Calls ref call ∧ call.owner = owner ∧
    call.name = m.name ∧ call.descriptor = m.descriptor ∧ q.Calls ref { call with name := new }
  own : q.method? id =
    some { m.redirected (fun insn => p.Holds (.method id) ⟨id, insn⟩)
      (mapCall fun call => { call with name := new }) with name := new }
  classes : q.classes = p.classes
  keyed : ∀ key, q.findMethodKey? key = some id ↔ key = Key.method owner new m.descriptor
  given_up : q.findMethodKey? (Key.method owner m.name m.descriptor) = none

structure FieldMoved (p q : Program) (id : FieldId) (f : Field) (owner : String)
    (destination : ClassId) (goal : String) : Prop
    extends Touches p q (.field id) (mapFieldUse fun use => { use with owner := goal }) where
  uses : ∀ ref, p.Holds (.field id) ref → ∃ use, p.Uses ref use ∧ use.name = f.name ∧
    q.Uses ref { use with owner := goal }
  own : ∃ references, q.field? id = some { f with owner := destination, references }
  classes : ∀ c, q.class? c = (p.class? c).map fun row => { row with
    fields :=
      if c = destination then row.fields ++ [id]
      else if c = f.owner then row.fields.filter (· ≠ id)
      else row.fields }
  keyed : ∀ key, q.findFieldKey? key = some id ↔ key = Key.field goal f.name
  given_up : q.findFieldKey? (Key.field owner f.name) = none

section Touching

variable (p q : Program)

theorem reaches_by (id : FieldId) (ref : InsnRef) (named : p.target? ref = some (.field id))
    (key : String) (keyed : ∀ key', p.findFieldKey? key' = some id ↔ key' = key) :
    p.ReachesBy ref key := by
  rw [target?_eq] at named
  obtain ⟨⟨context, operand⟩, site, named⟩ := Option.bind_eq_some_iff.mp named
  obtain ⟨use, rfl, outcome⟩ := lookup?_field p context operand id named
  refine ⟨context, use, site, ?_⟩
  rcases outcome with direct | ⟨missing, superName, isSuper, inherited⟩
  · exact Or.inl ((keyed _).mp direct)
  · exact Or.inr ⟨missing, superName, isSuper, (keyed _).mp inherited⟩

section Recorded

variable (bound : p.Bound) (ref : InsnRef)

include bound

theorem uses_of_held (id : FieldId) (f : Field) (found : p.field? id = some f)
    (change : FieldUse → FieldUse) (held : p.Holds (.field id) ref)
    (site : q.site? ref = (p.site? ref).map fun site => (site.1, mapFieldUse change site.2)) :
    ∃ use, p.Uses ref use ∧ use.name = f.name ∧ q.Uses ref (change use) := by
  obtain ⟨context, operand, before, named⟩ := bound.sound.site _ ref held
  obtain ⟨use, rfl, _⟩ := lookup?_field p context operand id named
  obtain ⟨f', _, found', _, sameName, _⟩ := field_use_live p bound.indexed context use id named
  cases found.symm.trans found'
  refine ⟨use, ⟨context, before⟩, sameName.symm, context, ?_⟩
  rw [site, before]
  rfl

theorem calls_of_held (id : MethodId) (m : Method) (owner : String) (found : p.method? id = some m)
    (live : p.className? m.owner = some owner) (change : Call → Call) (held : p.Holds (.method id) ref)
    (site : q.site? ref = (p.site? ref).map fun site => (site.1, mapCall change site.2)) :
    ∃ call, p.Calls ref call ∧ call.owner = owner ∧ call.name = m.name ∧
      call.descriptor = m.descriptor ∧ q.Calls ref (change call) := by
  obtain ⟨context, operand, before, named⟩ := bound.sound.site _ ref held
  obtain ⟨call, rfl, key⟩ := lookup?_method p context operand id named
  have plain : Undotted call.owner ∧ Undotted call.name := bound.coded.plain ref context _ before
  obtain ⟨sameOwner, sameName, sameDescriptor⟩ := Key.method_injective _ _ _ _ _ _ plain.1
    (bound.indexed.plain_owner p m.owner owner live) plain.2
    (bound.indexed.plain_method_name p id m found)
    ((bound.indexed.find_method_key p id m owner call.key found live).mp key)
  refine ⟨call, ⟨context, before⟩, sameOwner, sameName, sameDescriptor, context, ?_⟩
  rw [site, before]
  rfl

end Recorded

theorem rename_field_touches (id : FieldId) (new : String) (f : Field) (bound : p.Bound)
    (plain : Undotted new) (found : p.field? id = some f) (differ : new ≠ f.name)
    (done : p.renameField id new = .ok q) :
    ∃ owner, p.className? f.owner = some owner ∧ FieldRenamed p q id f owner new := by
  have boundNow := bound_rename_field p q bound id new plain done
  have recorded := holds_rename_field_iff p q id new done
  obtain ⟨f', found', outcome⟩ := rename_field_ok p q id new done
  cases found.symm.trans found'
  rcases outcome with ⟨same, _⟩ | ⟨owner, _, live, free, _, _, rfl⟩
  · exact absurd same.symm differ
  let change := mapFieldUse fun use => { use with name := new }
  have settles : ∀ o, change (change o) = change o := by intro o; cases o <;> rfl
  have keepsPlain : ∀ o, o.Plain → (change o).Plain :=
    plain_map_field_use _ fun u parts => ⟨parts.1, plain⟩
  let relabelled := p.relabelField id owner f.name new
  obtain ⟨classes, fields, index⟩ := update_operands_frame relabelled change f.references.toList
  have row : ∀ i, relabelled.field? i = if id = i then
      (p.field? i).map fun f => { f with name := new } else p.field? i :=
    fun i => field?_update_field (p.updateIndex _) id i _
  have own : (relabelled.updateAll f.references change).field? id = some { f with name := new } := by
    rw [updateAll, field?, fields]
    exact (row id).trans (by rw [if_pos rfl, found]; rfl)
  have keyed : ∀ key, (relabelled.updateAll f.references change).findFieldKey? key = some id ↔
      key = Key.field owner new := by
    intro key
    refine boundNow.indexed.find_field_key _ id _ owner key own ?_
    rw [className?, class?, updateAll, classes]
    exact live
  have named : ∀ ref, p.Holds (.field id) ref →
      (relabelled.updateAll f.references change).target? ref = some (.field id) :=
    fun ref held => boundNow.sound _ ref ((recorded _ ref).mpr held)
  refine ⟨owner, live, ⟨recorded, named, ?_, ?_⟩, ?_, ?_, own, ?_, keyed, ?_⟩
  · intro n _
    refine (method?_update_operands relabelled change settles keepsPlain bound.coded _ n).trans ?_
    simp only [mem_references p _ id f found]
    rfl
  · intro i other
    have differ : id ≠ i := fun same => other (congrArg Target.field same)
    rw [updateAll, field?, fields]
    exact (row i).trans (if_neg differ)
  · intro ref held
    refine uses_of_held p _ bound ref id f found _ held ?_
    refine (site?_update_all relabelled f.references.toList change settles ref).trans ?_
    rw [if_pos ((mem_references p ref id f found).mpr held)]
    rfl
  · intro ref held
    exact reaches_by _ id ref (named ref held) _ keyed
  · exact classes
  · have held : p.findFieldKey? (Key.field owner f.name) = some id :=
      (bound.indexed.find_field_key p id f owner _ found live).mpr rfl
    have newKey : Key.field owner new ≠ Key.field owner f.name := ne_of_free free held
    rw [updateAll, findFieldKey?, index]
    change relabelled.findFieldKey? _ = none
    rw [find_field_key?_relabel_field, if_neg newKey, if_pos ⟨rfl, held⟩]

theorem rename_method_touches (id : MethodId) (new : String) (m : Method) (bound : p.Bound)
    (plain : Undotted new) (found : p.method? id = some m) (differ : new ≠ m.name)
    (done : p.renameMethod id new = .ok q) :
    ∃ owner, p.className? m.owner = some owner ∧ MethodRenamed p q id m owner new := by
  have boundNow := bound_rename_method p q bound id new plain done
  have recorded := holds_rename_method_iff p q id new done
  obtain ⟨m', found', _, outcome⟩ := rename_method_ok p q id new done
  cases found.symm.trans found'
  rcases outcome with ⟨same, _⟩ | ⟨owner, _, live, free, rfl⟩
  · exact absurd same.symm differ
  let change := mapCall fun call => { call with name := new }
  have settles : ∀ o, change (change o) = change o := by intro o; cases o <;> rfl
  have keepsPlain : ∀ o, o.Plain → (change o).Plain := plain_map_call _ fun c parts => ⟨parts.1, plain⟩
  let relabelled := p.relabelMethod id owner m.name new m.descriptor
  obtain ⟨classes, fields, index⟩ := update_operands_frame relabelled change m.invocations.toList
  have row : ∀ n, relabelled.method? n = if id = n then
      (p.method? n).map fun m => { m with name := new } else p.method? n :=
    fun n => method?_update_method (p.updateIndex _) id n _
  have coded : relabelled.Coded := coded_relabel_method p id owner m.name new m.descriptor bound.coded
  have bodies : ∀ n, (relabelled.updateAll m.invocations change).method? n =
      (relabelled.method? n).map (·.redirected (fun insn => p.Holds (.method id) ⟨n, insn⟩) change) := by
    intro n
    refine (method?_update_operands relabelled change settles keepsPlain coded _ n).trans ?_
    simp only [mem_invocations p _ id m found]
  have own : (relabelled.updateAll m.invocations change).method? id =
      some { m.redirected (fun insn => p.Holds (.method id) ⟨id, insn⟩) change with name := new } := by
    rw [bodies, row, if_pos rfl, found]
    rfl
  have live' : (relabelled.updateAll m.invocations change).className? m.owner = some owner := by
    rw [className?, class?, updateAll, classes]
    exact live
  have keyed := fun key => boundNow.indexed.find_method_key _ id _ owner key own live'
  refine ⟨owner, live, ⟨recorded, ?_, ?_, ?_⟩, ?_, own, classes, keyed, ?_⟩
  · exact fun ref held => boundNow.sound _ ref ((recorded _ ref).mpr held)
  · intro n other
    have differ : id ≠ n := fun same => other (congrArg Target.method same)
    rw [bodies, row, if_neg differ]
  · intro i _
    rw [updateAll, field?, fields]
    rfl
  · intro ref held
    refine calls_of_held p _ bound ref id m owner found live _ held ?_
    refine (site?_update_all relabelled m.invocations.toList change settles ref).trans ?_
    rw [if_pos ((mem_invocations p ref id m found).mpr held), site?_relabel_method]
  · have held : p.findMethodKey? (Key.method owner m.name m.descriptor) = some id :=
      (bound.indexed.find_method_key p id m owner _ found live).mpr rfl
    have newKey : Key.method owner new m.descriptor ≠ Key.method owner m.name m.descriptor := ne_of_free free held
    rw [updateAll, findMethodKey?, index]
    change relabelled.findMethodKey? _ = none
    rw [find_method_key?_relabel_method, if_neg newKey, if_pos ⟨rfl, held⟩]

theorem move_field_touches (id : FieldId) (destination : ClassId) (f : Field) (bound : p.Bound)
    (found : p.field? id = some f) (done : p.moveField id destination = .ok q) :
    ∃ owner goal, p.className? f.owner = some owner ∧ p.className? destination = some goal ∧
      FieldMoved p q id f owner destination goal := by
  have boundNow := bound_move_field p q bound id destination done
  have recorded := holds_move_field_iff p q id destination bound done
  obtain ⟨f', owner, goal, found', live, there, elsewhere, free, _, rfl⟩ :=
    move_field_ok p q id destination bound.indexed.is_owned done
  cases found.symm.trans found'
  let change := mapFieldUse fun use => { use with owner := goal }
  have settles : ∀ o, change (change o) = change o := by intro o; cases o <;> rfl
  have keepsPlain : ∀ o, o.Plain → (change o).Plain :=
    plain_map_field_use _ fun u parts => ⟨bound.indexed.plain_owner p destination goal there, parts.2⟩
  let placed := (p.detachField id f.owner (Key.field owner f.name)).placeField id destination
    (Key.field goal f.name) { f with references := .empty }
  obtain ⟨classes, index, bodies, others, own⟩ := retargets_rows placed change settles keepsPlain
    bound.coded f.references.toList id (lands_move_field p id f _ destination goal bound found)
  have row : ∀ i, placed.field? i = if id = i then
      some { f with owner := destination, references := .empty } else p.field? i := by
    intro i
    refine (Table.get?_insert _ id i _).trans ?_
    by_cases same : id = i
    · rw [if_pos same, if_pos same]
    · rw [if_neg same, if_neg same]
      exact (Table.get?_erase p.fields id i).trans (if_neg same)
  obtain ⟨references, ownNow⟩ := own _ ((row id).trans (if_pos rfl))
  have lists := fun c => class?_moved_field p f.owner c destination elsewhere id
    (Key.field owner f.name) (Key.field goal f.name) { f with references := .empty }
  have goalNow : (f.references.toList.foldl (retarget · change) placed).className? destination =
      some goal := by
    rw [className?, class?, classes]
    change (placed.class? destination).map (·.name) = some goal
    rw [lists, Option.map_map]
    exact there
  have keyed := fun key => boundNow.indexed.find_field_key _ id _ goal key ownNow goalNow
  refine ⟨owner, goal, live, there, ⟨recorded, ?_, ?_, ?_⟩, ?_, ⟨references, ownNow⟩, ?_, keyed, ?_⟩
  · exact fun ref held => boundNow.sound _ ref ((recorded _ ref).mpr held)
  · intro n _
    refine (bodies n).trans ?_
    simp only [mem_references p _ id f found]
    rfl
  · intro i other
    have differ : id ≠ i := fun same => other (congrArg Target.field same)
    exact (others i (Ne.symm differ)).trans ((row i).trans (if_neg differ))
  · intro ref held
    refine uses_of_held p _ bound ref id f found _ held ?_
    refine (site?_retargets placed change settles f.references.toList ref).trans ?_
    rw [if_pos ((mem_references p ref id f found).mpr held)]
    rfl
  · exact fun c => (congrArg (Table.get? · c) classes).trans (lists c)
  · have held : p.findFieldKey? (Key.field owner f.name) = some id :=
      (bound.indexed.find_field_key p id f owner _ found live).mpr rfl
    have newKey : Key.field goal f.name ≠ Key.field owner f.name := ne_of_free free held
    rw [findFieldKey?, index]
    change placed.findFieldKey? _ = none
    rw [find_field_key?_place, if_neg newKey, find_field_key?_detach, if_pos ⟨rfl, held⟩]

end Touching

end Program

namespace Session

open Program

-- After any run of edits, renaming a member and moving a field touch exactly what is recorded.
theorem edits_touch [Libraries] (settings : Settings) (loads : List SessionAction)
    (edits : List MemberEdit)
    (plainLoads : ∀ action ∈ loads, action.PlainLoad) (plainEdits : ∀ e ∈ edits, e.Plain) :
    let p := edits.foldl perform (resolved settings loads)
    (∀ id new f q, Undotted new → p.field? id = some f → new ≠ f.name →
      p.renameField id new = .ok q →
        ∃ owner, p.className? f.owner = some owner ∧ FieldRenamed p q id f owner new) ∧
    (∀ id new m q, Undotted new → p.method? id = some m → new ≠ m.name →
      p.renameMethod id new = .ok q →
        ∃ owner, p.className? m.owner = some owner ∧ MethodRenamed p q id m owner new) ∧
    ∀ id destination f q, p.field? id = some f → p.moveField id destination = .ok q →
      ∃ owner goal, p.className? f.owner = some owner ∧ p.className? destination = some goal ∧
        FieldMoved p q id f owner destination goal := by
  intro p
  have bound : p.Bound := bound_edits _ edits (bound_resolved settings loads plainLoads) plainEdits
  refine ⟨?_, ?_, ?_⟩
  · intro id new f q plain found differ done
    exact rename_field_touches p q id new f bound plain found differ done
  · intro id new m q plain found differ done
    exact rename_method_touches p q id new m bound plain found differ done
  · intro id destination f q found done
    exact move_field_touches p q id destination f bound found done

-- The subclass reads the field through its superclass, under whatever name the field has there.
theorem edits_touch_child : (∀ action ∈ baseAndChild, action.PlainLoad) ∧
    (∃ q, (resolved {} baseAndChild).renameField ⟨2⟩ "count" = .ok q ∧
      q.ReachesBy ⟨⟨5⟩, ⟨6⟩⟩ (Key.field "Base" "count")) ∧
    (∃ q, (resolved {} baseAndChild).renameMethod ⟨3⟩ "call" = .ok q ∧
      q.target? ⟨⟨5⟩, ⟨7⟩⟩ = some (.method ⟨3⟩)) ∧
    ∃ q, (resolved {} baseAndChild).moveField ⟨2⟩ ⟨4⟩ = .ok q ∧
      q.target? ⟨⟨5⟩, ⟨6⟩⟩ = some (.field ⟨2⟩) := by
  have plain : ∀ action ∈ baseAndChild, action.PlainLoad := by decide
  have touch := edits_touch {} baseAndChild [] plain (by simp)
  have reads : (resolved {} baseAndChild).Holds (.field ⟨2⟩) ⟨⟨5⟩, ⟨6⟩⟩ := by decide
  have calls : (resolved {} baseAndChild).Holds (.method ⟨3⟩) ⟨⟨5⟩, ⟨7⟩⟩ := by decide
  obtain ⟨owner, live, renamed⟩ := touch.1 ⟨2⟩ "count" _ _ (by decide) rfl (by decide) rfl
  obtain ⟨_, _, called⟩ := touch.2.1 ⟨3⟩ "call" _ _ (by decide) rfl (by decide) rfl
  obtain ⟨_, _, _, _, moved⟩ := touch.2.2 ⟨2⟩ ⟨4⟩ _ _ rfl rfl
  cases live
  exact ⟨plain, ⟨_, rfl, renamed.reached _ reads⟩, ⟨_, rfl, called.named _ calls⟩,
    ⟨_, rfl, moved.named _ reads⟩⟩

end Session

end JvmEdit
