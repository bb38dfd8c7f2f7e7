import JvmEdit.Proofs.References.ClassRename
import JvmEdit.Proofs.References.Resolution
set_option autoImplicit false

namespace JvmEdit

namespace Program

theorem SameNames.symm {p q : Program} (same : SameNames p q) : SameNames q p :=
  ⟨same.index.symm, same.nextId.symm, same.classIds.symm, same.fieldIds.symm, same.methodIds.symm,
    fun id => (same.classes id).symm, fun id => (same.fields id).symm,
    fun id => (same.methods id).symm⟩

instance decidableHolds (p : Program) (target : Target) (ref : InsnRef) :
    Decidable (p.Holds target ref) := inferInstanceAs (Decidable (ref ∈ p.records target))

theorem names_iff_target? (p : Program) (coded : p.Coded) (target : Target) (ref : InsnRef) :
    p.Names target ref ↔ p.target? ref = some target := by
  constructor
  · rintro ⟨m, i, live, member, isInsn, named⟩
    rw [target?, live, Option.bind_some, ← isInsn,
      Stream.get?_of_mem m.code i (coded _ m live).unique member]
    exact named
  · intro named
    obtain ⟨m, live, named⟩ := Option.bind_eq_some_iff.mp named
    obtain ⟨i, found, named⟩ := Option.bind_eq_some_iff.mp named
    obtain ⟨member, isInsn⟩ := Stream.mem_of_get? _ _ _ found
    exact ⟨m, i, live, member, isInsn, named⟩

section Records

variable (p : Program)

theorem holds_forget_references_other (id : MethodId) (context : ClassId) (target : Target)
    (ref : InsnRef) (elsewhere : ref.method ≠ id) (holds : p.Holds target ref) :
    (p.forgetReferences id context).Holds target ref := by
  rw [forgetReferences]
  refine List.foldlRecOn (motive := fun q : Program => q.Holds target ref) _ _ holds fun q kept i _ => ?_
  simp only [forget]
  split
  · exact (holds_unrecord_iff q _ target ⟨id, i.id⟩ ref).mpr
      ⟨kept, fun both => elsewhere (congrArg InsnRef.method both.2)⟩
  · exact kept

theorem holds_forget_references_iff (id : MethodId) (m : Method) (sound : p.Sound)
    (live : p.method? id = some m) (target : Target) (ref : InsnRef) :
    (p.forgetReferences id m.owner).Holds target ref ↔ p.Holds target ref ∧ ref.method ≠ id := by
  refine ⟨holds_forget_references p id m sound live target ref, ?_⟩
  intro ⟨holds, elsewhere⟩
  exact holds_forget_references_other p id m.owner target ref elsewhere holds

theorem holds_resolve_method_iff (id : MethodId) (indexed : p.Indexed) (coded : p.Coded)
    (target : Target) (ref : InsnRef) : (p.resolveMethod id).1.Holds target ref ↔
      p.Holds target ref ∨ ref.method = id ∧ p.target? ref = some target := by
  rw [holds_resolve_method p (rows_live_of_indexed p indexed), names_iff_target? p coded]

theorem same_sites_resolve_method (id : MethodId) : SameSites p (p.resolveMethod id).1 := by
  cases live : p.method? id with
  | none =>
      rw [resolve_method_dead p id live]
      exact .refl p
  | some m =>
      rw [resolve_method_program p id m live]
      exact .foldl _ (fun q (i : Instruction) => same_sites_remember q m.owner ⟨id, i.id⟩ i.operand) _ p

theorem holds_resolve_all_iff (indexed : p.Indexed) (coded : p.Coded) (target : Target)
    (ref : InsnRef) : p.resolveAll.1.Holds target ref ↔
      p.Holds target ref ∨ p.target? ref = some target := by
  rw [resolve_all_eq_resolve_each, holds_resolve_each p p.methodIds (rows_live_of_indexed p indexed),
    names_iff_target? p coded]
  refine or_congr_right ⟨fun both => both.2, fun named => ⟨?_, named⟩⟩
  obtain ⟨m, live, _⟩ := Option.bind_eq_some_iff.mp named
  exact (Table.mem_keys_iff _ _).mpr ⟨m, live⟩

end Records

section Retarget

variable (p : Program) (f : Operand → Operand)

-- Instructions that all come to name one entity when they are pointed elsewhere.
def Lands (refs : List InsnRef) (target : Target) : Prop :=
  ∀ ref ∈ refs, ∃ context operand, p.site? ref = some (context, operand) ∧
    p.lookup? (some context) (f operand) = some target

theorem retarget_eq (ref : InsnRef) (target : Target) (lands : Lands p f [ref] target) :
    p.retarget f ref = (p.updateOperand ref f).record target ref := by
  obtain ⟨context, operand, site, named⟩ := lands ref (List.mem_singleton.mpr rfl)
  have names : (p.updateOperand ref f).target? ref = some target := by
    rw [target?_eq, site?_update_operand, if_pos rfl, site, Option.map_some, Option.bind_some,
      lookup?_update_operand]
    exact named
  simp only [retarget, resolveInstruction]
  rw [names]

theorem holds_retarget_iff (ref : InsnRef) (target : Target) (live : p.Live target)
    (lands : Lands p f [ref] target) (other : Target) (held : InsnRef) :
    (p.retarget f ref).Holds other held ↔ p.Holds other held ∨ other = target ∧ held = ref := by
  rw [retarget_eq p f ref target lands, holds_record_iff _ target other ref held
    ((live_same_names p _ (same_names_update_operand p ref f) target).mpr live),
    Holds, records_update_operand, Holds]

theorem coded_retargets (refs : List InsnRef) (keepsPlain : ∀ o, o.Plain → (f o).Plain)
    (coded : p.Coded) : (refs.foldl (retarget · f) p).Coded := by
  induction refs generalizing p with
  | nil => exact coded
  | cons ref refs ih => exact ih _ (coded_retarget p f ref keepsPlain coded)

theorem site?_retarget (ref other : InsnRef) : (p.retarget f ref).site? other =
    if ref = other then (p.site? other).map fun site => (site.1, f site.2) else p.site? other := by
  rw [retarget, (same_sites_resolve_instruction _ ref).sites, site?_update_operand]

theorem lookup?_retarget (ref : InsnRef) (context : ClassId) (operand : Operand) :
    (p.retarget f ref).lookup? (some context) operand = p.lookup? (some context) operand := by
  rw [retarget, (same_sites_resolve_instruction _ ref).lookup?, lookup?_update_operand]

theorem Lands.head {p : Program} {f : Operand → Operand} {refs : List InsnRef} {target : Target}
    {ref : InsnRef} (lands : Lands p f (ref :: refs) target) : Lands p f [ref] target :=
  fun i member => lands i (List.mem_singleton.mp member ▸ List.mem_cons_self)

theorem Lands.tail {p : Program} {f : Operand → Operand} {refs : List InsnRef} {target : Target}
    {ref : InsnRef} (lands : Lands p f (ref :: refs) target) (settles : ∀ o, f (f o) = f o) :
    Lands (p.retarget f ref) f refs target := by
  intro i member
  obtain ⟨context, operand, site, named⟩ := lands i (List.mem_cons_of_mem _ member)
  have site' := site?_retarget p f ref i
  rw [site] at site'
  by_cases same : ref = i
  · rw [if_pos same] at site'
    refine ⟨context, f operand, site', ?_⟩
    rw [lookup?_retarget, settles]
    exact named
  · rw [if_neg same] at site'
    refine ⟨context, operand, site', ?_⟩
    rw [lookup?_retarget]
    exact named

theorem holds_retargets_iff (settles : ∀ o, f (f o) = f o) (refs : List InsnRef) (target : Target)
    (live : p.Live target) (lands : Lands p f refs target) (other : Target) (held : InsnRef) :
    (refs.foldl (retarget · f) p).Holds other held ↔
      p.Holds other held ∨ other = target ∧ held ∈ refs := by
  induction refs generalizing p with
  | nil => simp
  | cons ref refs ih =>
      have liveStill := (live_same_names p _ (same_names_retarget p f ref) target).mpr live
      rw [List.foldl_cons, ih _ liveStill (lands.tail settles),
        holds_retarget_iff p f ref target live lands.head, or_assoc, List.mem_cons, ← and_or_left]

end Retarget

section Edits

variable (p q : Program)

theorem holds_rename_field_iff (id : FieldId) (new : String) (done : p.renameField id new = .ok q)
    (target : Target) (ref : InsnRef) : q.Holds target ref ↔ p.Holds target ref := by
  obtain ⟨f, _, ⟨_, rfl⟩ | ⟨owner, _, _, _, _, _, rfl⟩⟩ := rename_field_ok p q id new done
  · exact Iff.rfl
  · rw [Holds, updateAll, (update_all_frame _ _ _).2, records_relabel_field, Holds]

theorem holds_rename_method_iff (id : MethodId) (new : String) (done : p.renameMethod id new = .ok q)
    (target : Target) (ref : InsnRef) : q.Holds target ref ↔ p.Holds target ref := by
  obtain ⟨m, _, _, ⟨_, rfl⟩ | ⟨owner, _, _, _, rfl⟩⟩ := rename_method_ok p q id new done
  · exact Iff.rfl
  · rw [Holds, updateAll, (update_all_frame _ _ _).2, records_relabel_method, Holds]

theorem holds_rename_class_iff (id : ClassId) (new : String) (indexed : p.Indexed)
    (done : p.renameClass id new = .ok q) (target : Target) (ref : InsnRef) :
    q.Holds target ref ↔ p.Holds target ref := by
  obtain ⟨old, _, outcome⟩ := rename_class_ok p q id new indexed.is_owned
    (Table.keys_nodup _ indexed.classOrder) (Table.keys_nodup _ indexed.fieldOrder)
    (Table.keys_nodup _ indexed.methodOrder) done
  rcases outcome with ⟨_, rfl⟩ | ⟨_, _, _, rfl⟩
  · exact Iff.rfl
  · rw [Holds, records_relink_class, records_renamed, Holds]

theorem lands_move_field (id : FieldId) (f : Field) (old : String) (destination : ClassId)
    (name : String) (bound : p.Bound) (found : p.field? id = some f) :
    Lands ((p.detachField id f.owner old).placeField id destination (Key.field name f.name)
      { f with references := .empty }) (mapFieldUse fun use => { use with owner := name })
        f.references.toList (.field id) := by
  intro ref member
  have held : p.Holds (.field id) ref := by
    rw [Holds, records, found]
    exact (OrderedSet.mem_to_list _ _).mp member
  obtain ⟨context, operand, site, named⟩ := bound.sound.site _ ref held
  obtain ⟨u, rfl, _⟩ := lookup?_field p context operand id named
  obtain ⟨f', _, found', _, sameName, _⟩ := field_use_live p bound.indexed context u id named
  cases found.symm.trans found'
  refine ⟨context, .field u, site, ?_⟩
  have key : FieldUse.key { u with owner := name } = Key.field name f.name := by
    rw [FieldUse.key, sameName]
  change Program.lookup? _ (some context) (.field { u with owner := name }) = _
  rw [lookup?_use, key, find_field_key?_place, if_pos rfl]
  rfl

theorem holds_move_field_iff (id : FieldId) (destination : ClassId) (bound : p.Bound)
    (done : p.moveField id destination = .ok q) (target : Target) (ref : InsnRef) :
    q.Holds target ref ↔ p.Holds target ref := by
  obtain ⟨f, owner, name, found, live, there, _, _, _, rfl⟩ :=
    move_field_ok p q id destination bound.indexed.is_owned done
  have placedLive : ((p.detachField id f.owner (Key.field owner f.name)).placeField id destination
      (Key.field name f.name) { f with references := .empty }).Live (.field id) := by
    have stored := Table.get?_insert_self (p.detachField id f.owner (Key.field owner f.name)).fields id
      { f with owner := destination, references := .empty }
    exact Option.isSome_iff_exists.mpr ⟨_, congrArg (Option.map Field.naming) stored⟩
  rw [holds_retargets_iff _ _ (by intro o; cases o <;> rfl) _ (.field id) placedLive
    (lands_move_field p id f _ destination name bound found)]
  have recorded : ref ∈ f.references.toList ↔ p.Holds (.field id) ref := by
    rw [OrderedSet.mem_to_list, Holds, records, found]
    rfl
  rw [Holds, records_place_field, recorded]
  by_cases own : target = .field id
  · rw [if_pos own, own]
    simp [OrderedSet.not_mem_empty]
  · rw [if_neg own, records_detach_field, if_neg own]
    simp [own, Holds]

theorem lands_move_method (id : MethodId) (m moved : Method) (owner old : String) (destination : ClassId)
    (goal : Class) (bound : p.Bound) (found : p.method? id = some m)
    (live : p.className? m.owner = some owner)
    (movedFound : (p.forgetReferences id m.owner).method? id = some moved) :
    Lands (((p.forgetReferences id m.owner).detachMethod id m.owner old).placeMethod id destination
        (Key.method goal.name m.name m.descriptor) { moved with invocations := .empty })
      (mapCall fun call => { call with owner := goal.name, isInterface := goal.access.isInterface })
        moved.invocations.toList (.method id) := by
  intro call member
  have invoked : (p.forgetReferences id m.owner).Holds (.method id) call := by
    rw [Holds, records, movedFound]
    exact (OrderedSet.mem_to_list _ _).mp member
  obtain ⟨before, elsewhere⟩ := (holds_forget_references_iff p id m bound.sound found _ call).mp invoked
  obtain ⟨context, operand, site, named⟩ := bound.sound.site _ call before
  obtain ⟨c, rfl, key⟩ := lookup?_method p context operand id named
  have plainCall : Undotted c.owner ∧ Undotted c.name := bound.coded.plain call context _ site
  have parts := Key.method_injective _ _ _ _ _ _ plainCall.1
    (bound.indexed.plain_owner p m.owner owner live) plainCall.2
    (bound.indexed.plain_method_name p id m found)
    ((bound.indexed.find_method_key p id m owner c.key found live).mp key)
  refine ⟨context, .call c, ?_, ?_⟩
  · rw [site?_place_method _ id destination _ _ call elsewhere, site?_detach_method _ id m.owner _ call elsewhere,
      (forget_references_frame p id m.owner).sites, site]
  · change (Program.findMethodKey? _ (Key.method goal.name c.name c.descriptor)).map Target.method = _
    rw [find_method_key?_place, parts.2.1, parts.2.2, if_pos rfl]
    rfl

theorem holds_move_method_iff (id : MethodId) (destination : ClassId) (bound : p.Bound)
    (done : p.moveMethod id destination = .ok q) (target : Target) (ref : InsnRef) :
    q.Holds target ref ↔
      if ref.method = id then q.target? ref = some target else p.Holds target ref := by
  have indexedNow := indexed_move_method p q id destination bound.indexed done
  obtain ⟨m, owner, goal, moved, found, live, there, _, _, movedFound, _, rfl⟩ :=
    move_method_ok p q id destination bound.indexed.is_owned done
  have same := forget_references_frame p id m.owner
  have plainName : Undotted goal.name :=
    bound.indexed.plain_owner p destination goal.name (by rw [className?, there]; rfl)
  have forgotten := holds_forget_references_iff p id m bound.sound found
  have invoked : ∀ ref, ref ∈ moved.invocations.toList ↔
      (p.forgetReferences id m.owner).Holds (.method id) ref := by
    intro ref
    rw [OrderedSet.mem_to_list, Holds, records, movedFound]
    rfl
  let placed := ((p.forgetReferences id m.owner).detachMethod id m.owner
    (Key.method owner m.name m.descriptor)).placeMethod id destination
      (Key.method goal.name m.name m.descriptor) { moved with invocations := .empty }
  let follow := mapCall fun call =>
    { call with owner := goal.name, isInterface := goal.access.isInterface }
  let followed := moved.invocations.toList.foldl (retarget · follow) placed
  have placedLive : placed.Live (.method id) := by
    have stored := Table.get?_insert_self ((p.forgetReferences id m.owner).detachMethod id m.owner
      (Key.method owner m.name m.descriptor)).methods id
        { moved with owner := destination, invocations := .empty }
    exact Option.isSome_iff_exists.mpr ⟨_, congrArg (Option.map Method.naming) stored⟩
  have placedHolds : placed.Holds target ref ↔
      target ≠ .method id ∧ (p.forgetReferences id m.owner).Holds target ref := by
    rw [Holds, records_place_method]
    by_cases own : target = .method id
    · rw [if_pos own]
      simp [own, OrderedSet.not_mem_empty]
    · rw [if_neg own, records_detach_method, if_neg own]
      simp [own, Holds]
  have lands : Lands placed follow moved.invocations.toList (.method id) :=
    lands_move_method p id m moved owner _ destination goal bound found live movedFound
  have followedHolds : followed.Holds target ref ↔ p.Holds target ref ∧ ref.method ≠ id := by
    rw [holds_retargets_iff placed follow (by intro o; cases o <;> rfl) _ _ placedLive lands,
      placedHolds, invoked, ← forgotten]
    by_cases own : target = .method id
    · simp [own]
    · simp [own]
  have followedCoded : followed.Coded := by
    refine coded_retargets placed follow _ (plain_map_call _ fun c parts => ⟨plainName, parts.2⟩) ?_
    exact coded_place_method _ id destination _ _
      (coded_detach_method _ id m.owner _ (same.coded bound.coded))
      (same.coded bound.coded id moved movedFound)
  have followedIndexed : followed.Indexed :=
    indexed_same_names _ _ (same_names_resolve_method followed id).symm indexedNow
  change (followed.resolveMethod id).1.Holds target ref ↔
    if ref.method = id then (followed.resolveMethod id).1.target? ref = some target
    else p.Holds target ref
  rw [holds_resolve_method_iff followed id followedIndexed followedCoded, followedHolds,
    (same_sites_resolve_method followed id).target?]
  by_cases own : ref.method = id
  · simp [own]
  · simp [own]

end Edits

end Program

end JvmEdit
