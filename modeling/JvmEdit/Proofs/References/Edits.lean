import JvmEdit.Proofs.References.Binding
set_option autoImplicit false

namespace JvmEdit

namespace Stream

theorem foldl_cut_step (ids : List InsnId) (code : Stream) (before : List Instruction)
    (fits : code.Fits) : (ids.foldl cutStep (code, before)).1.Fits ∧
    (∀ other, (ids.foldl cutStep (code, before)).1.get? other =
      if other ∈ ids then none else code.get? other) ∧
    (∀ i ∈ before, i ∈ (ids.foldl cutStep (code, before)).2) ∧
    ∀ insn ∈ ids, ∀ i, code.get? insn = some i → i ∈ (ids.foldl cutStep (code, before)).2 := by
  induction ids generalizing code before with
  | nil => exact ⟨fits, fun _ => rfl, fun _ member => member, fun _ member => by cases member⟩
  | cons insn ids ih =>
      cases found : code.get? insn with
      | none =>
          have step : cutStep (code, before) insn = (code, before) := by simp only [cutStep, found]
          obtain ⟨stillFits, gets, earlier, removed⟩ := ih code before fits
          rw [List.foldl_cons, step]
          refine ⟨stillFits, ?_, earlier, ?_⟩
          · intro other
            rw [gets]
            by_cases same : other = insn
            · simp [same, found]
            · simp [same]
          · intro other member i present
            rcases List.mem_cons.mp member with atHead | later
            · subst atHead
              rw [found] at present
              cases present
            · exact removed other later i present
      | some i =>
          have step : cutStep (code, before) insn = (code.remove insn, i :: before) := by
            simp only [cutStep, found]
          obtain ⟨stillFits, gets, earlier, removed⟩ :=
            ih (code.remove insn) (i :: before) (fits_remove code insn fits)
          rw [List.foldl_cons, step]
          refine ⟨stillFits, ?_, fun j member => earlier j (List.mem_cons_of_mem _ member), ?_⟩
          · intro other
            rw [gets, get?_remove code insn other fits.unique]
            by_cases same : insn = other
            · simp [same]
            · simp [same, Ne.symm same]
          · intro other member j present
            by_cases same : insn = other
            · subst same
              rw [found] at present
              cases present
              exact earlier i List.mem_cons_self
            · rcases List.mem_cons.mp member with atHead | later
              · exact absurd atHead.symm same
              · refine removed other later j ?_
                rw [get?_remove code insn other fits.unique, if_neg same]
                exact present

theorem cut_spec (code : Stream) (ids : List InsnId) (fits : code.Fits) : (code.cut ids).1.Fits ∧
    (∀ other, (code.cut ids).1.get? other = if other ∈ ids then none else code.get? other) ∧
    ∀ insn ∈ ids, ∀ i, code.get? insn = some i → i ∈ (code.cut ids).2 := by
  obtain ⟨stillFits, gets, _, removed⟩ := foldl_cut_step ids code [] fits
  exact ⟨stillFits, gets, removed⟩

end Stream

namespace Program

theorem find_field_key?_relabel_field (p : Program) (id : FieldId) (owner old new key : String) :
    (p.relabelField id owner old new).findFieldKey? key =
      if Key.field owner new = key then some id
      else if Key.field owner old = key ∧ p.findFieldKey? (Key.field owner old) = some id then none
      else p.findFieldKey? key :=
  (Table.get?_insert _ _ key id).trans
    (congrArg (ite _ _) (Table.get?_erase_if p.index.fields (Key.field owner old) key id))

theorem find_method_key?_relabel_method (p : Program) (id : MethodId)
    (owner old new descriptor key : String) :
    (p.relabelMethod id owner old new descriptor).findMethodKey? key =
      if Key.method owner new descriptor = key then some id
      else if Key.method owner old descriptor = key ∧
        p.findMethodKey? (Key.method owner old descriptor) = some id then none
      else p.findMethodKey? key :=
  (Table.get?_insert _ _ key id).trans
    (congrArg (ite _ _) (Table.get?_erase_if p.index.methods (Key.method owner old descriptor) key id))

theorem records_relabel_field (p : Program) (id : FieldId) (owner old new : String)
    (target : Target) : (p.relabelField id owner old new).records target = p.records target := by
  refine (records_update_field _ id _ ?_ target).trans ?_
  · intro f
    rfl
  · cases target <;> rfl

theorem records_relabel_method (p : Program) (id : MethodId) (owner old new descriptor : String)
    (target : Target) :
    (p.relabelMethod id owner old new descriptor).records target = p.records target := by
  refine (records_update_method _ id _ ?_ target).trans ?_
  · intro m
    rfl
  · cases target <;> rfl

theorem site?_relabel_method (p : Program) (id : MethodId) (owner old new descriptor : String)
    (ref : InsnRef) : (p.relabelMethod id owner old new descriptor).site? ref = p.site? ref := by
  refine (same_sites_update_method (p.updateIndex _) id _ ?_).sites ref
  exact fun _ => ⟨rfl, rfl⟩

theorem coded_relabel_method (p : Program) (id : MethodId) (owner old new descriptor : String)
    (coded : p.Coded) : (p.relabelMethod id owner old new descriptor).Coded := by
  refine (same_sites_update_method (p.updateIndex _) id _ ?_).coded coded
  exact fun _ => ⟨rfl, rfl⟩

theorem lookup?_relabel_field_own (p : Program) (id : FieldId) (f : Field) (owner new : String)
    (indexed : p.Indexed) (found : p.field? id = some f) (live : p.className? f.owner = some owner)
    (context : ClassId) (u : FieldUse)
    (named : p.lookup? (some context) (.field u) = some (.field id))
    (unstolen : ∀ other, p.findFieldKey? (Key.field u.owner new) = some other → other = id) :
    (p.relabelField id owner f.name new).lookup? (some context) (.field { u with name := new }) =
      some (.field id) := by
  have plain_owner := indexed.plain_owner p f.owner owner live
  have plainName := indexed.plain_field_name p id f found
  have held := fun key => indexed.find_field_key p id f owner key found live
  have index := find_field_key?_relabel_field p id owner f.name new
  have lookup : (p.relabelField id owner f.name new).lookup? (some context)
      (.field { u with name := new }) =
        (((p.relabelField id owner f.name new).findFieldKey? (Key.field u.owner new)).or
          ((p.relabelField id owner f.name new).inheritedField? (some context) new)).map .field :=
    lookup?_use _ context { u with name := new }
  rw [lookup]
  obtain ⟨_, isField, outcome⟩ := lookup?_field p context _ id named
  cases isField
  rcases outcome with direct | ⟨missing, superName, isSuper, inherited⟩
  · have parts := Key.field_injective_of_plain _ _ _ _ plain_owner plainName ((held u.key).mp direct)
    rw [index, parts.1, if_pos rfl, Option.some_or, Option.map_some]
  · have parts := Key.field_injective_of_plain _ _ _ _ plain_owner plainName ((held _).mp inherited)
    have elsewhere : u.owner ≠ owner := by
      intro same
      rw [FieldUse.key, same, ← parts.1, inherited] at missing
      cases missing
    have stillMissing : (p.relabelField id owner f.name new).findFieldKey?
        (Key.field u.owner new) = none := by
      rw [index, if_neg fun same => elsewhere (Key.field_left_cancel _ _ _ same).symm]
      split
      · rfl
      · rename_i kept
        cases taken : p.findFieldKey? (Key.field u.owner new) with
        | none => rfl
        | some other =>
            rw [unstolen other taken] at taken
            exact absurd ⟨((held _).mp taken).symm, (held _).mpr rfl⟩ kept
    have supers : (p.relabelField id owner f.name new).super? context = some superName := isSuper
    have follows : (p.relabelField id owner f.name new).findField? superName new = some id := by
      rw [findField?, index, parts.1, if_pos rfl]
    rw [stillMissing, inherited_field?_eq]
    simp only [supers, Option.bind_some, follows, Option.none_or, Option.map_some]

theorem sound_update_all (p r : Program) (target : Target) (refs : OrderedSet InsnRef) (f : Operand → Operand)
    (settles : ∀ o, f (f o) = f o) (sound : p.Sound) (sites : ∀ ref, r.site? ref = p.site? ref)
    (records : ∀ t, r.records t = p.records t) (recorded : p.records target = refs)
    (follows : ∀ ref context operand, p.Holds target ref → p.site? ref = some (context, operand) →
      p.lookup? (some context) operand = some target → r.lookup? (some context) (f operand) = some target)
    (stays : ∀ ref context operand other, other ≠ target → p.Holds other ref →
      p.site? ref = some (context, operand) → p.lookup? (some context) operand = some other →
      r.lookup? (some context) operand = some other) : (r.updateAll refs f).Sound := by
  obtain ⟨lookups, same⟩ := update_all_frame r refs.toList f
  have listed : ∀ ref, ref ∈ refs.toList ↔ p.Holds target ref := by
    intro ref
    rw [OrderedSet.mem_to_list, Holds, recorded]
  intro other ref holds
  have before : p.Holds other ref := by
    rw [Holds, updateAll, same, records] at holds
    exact holds
  obtain ⟨context, operand, site, named⟩ := sound.site other ref before
  rw [target?_eq, updateAll, site?_update_all r refs.toList f settles ref, sites, site]
  by_cases own : other = target
  · subst own
    rw [if_pos ((listed ref).mpr before), Option.map_some, Option.bind_some, lookups]
    exact follows ref context operand before site named
  · have apart : ref ∉ refs.toList := fun member =>
      own (sound.only other target ref before ((listed ref).mp member))
    rw [if_neg apart, Option.bind_some, lookups]
    exact stays ref context operand other own before site named

theorem sound_rename_field (p q : Program) (id : FieldId) (new : String) (bound : p.Bound)
    (plain : Undotted new) (done : p.renameField id new = .ok q) : q.Sound ∧ q.Coded := by
  obtain ⟨f, found, outcome⟩ := rename_field_ok p q id new done
  rcases outcome with ⟨_, rfl⟩ | ⟨owner, _, live, free, unstolen, unbound, rfl⟩
  · exact ⟨bound.sound, bound.coded⟩
  have plain_owner := bound.indexed.plain_owner p f.owner owner live
  have index := find_field_key?_relabel_field p id owner f.name new
  have recorded : p.records (.field id) = f.references := by
    rw [Program.records, found]
    rfl
  refine ⟨?_, coded_update_all (p.relabelField id owner f.name new) f.references.toList _
    (plain_map_field_use _ fun u parts => ⟨parts.1, plain⟩) bound.coded⟩
  refine sound_update_all p _ (.field id) f.references _ (by intro o; cases o <;> rfl) bound.sound
    (fun _ => rfl) (records_relabel_field p id owner f.name new) recorded ?_ ?_
  · intro ref context operand before site named
    obtain ⟨u, rfl, _⟩ := lookup?_field p context operand id named
    refine lookup?_relabel_field_own p id f owner new bound.indexed found live context u named ?_
    rw [Holds, recorded] at before
    exact unstolen_of_checked p id f.references new unstolen ref before u
      (field_use_at?_site p ref context u site)
  · intro ref context operand target own before site named
    refine lookup?_kept p _ context operand target (.field id) (fun _ => rfl) rfl ?_
      (fun _ _ found _ => found) ?_ named own
    · intro key other present differ
      rw [index, if_neg, if_neg]
      · exact present
      · rintro ⟨rfl, holder⟩
        rw [present] at holder
        exact differ (congrArg Target.field (Option.some.inj holder))
      · rintro rfl
        rw [free] at present
        cases present
    · intro u other isField isTarget missing
      subst isField isTarget
      have differ : other ≠ id := fun same => own (congrArg Target.field same)
      have untaken := unbound_of_rebinds p id owner new bound.indexed plain_owner plain unbound ref
        context u other differ site before named missing
      rw [index, if_neg untaken.symm]
      split
      · rfl
      · exact missing

theorem sound_rename_method (p q : Program) (id : MethodId) (new : String) (bound : p.Bound)
    (plain : Undotted new) (done : p.renameMethod id new = .ok q) : q.Sound ∧ q.Coded := by
  obtain ⟨m, found, _, outcome⟩ := rename_method_ok p q id new done
  rcases outcome with ⟨_, rfl⟩ | ⟨owner, _, live, free, rfl⟩
  · exact ⟨bound.sound, bound.coded⟩
  have plain_owner := bound.indexed.plain_owner p m.owner owner live
  have plainName := bound.indexed.plain_method_name p id m found
  have held := fun key => bound.indexed.find_method_key p id m owner key found live
  have index := find_method_key?_relabel_method p id owner m.name new m.descriptor
  have recorded : p.records (.method id) = m.invocations := by
    rw [Program.records, found]
    rfl
  refine ⟨?_, coded_update_all _ m.invocations.toList _
    (plain_map_call _ fun c parts => ⟨parts.1, plain⟩)
    (coded_relabel_method p id owner m.name new m.descriptor bound.coded)⟩
  refine sound_update_all p _ (.method id) m.invocations _ (by intro o; cases o <;> rfl) bound.sound
    (site?_relabel_method p id owner m.name new m.descriptor)
    (records_relabel_method p id owner m.name new m.descriptor) recorded ?_ ?_
  · intro ref context operand before site named
    obtain ⟨c, rfl, key⟩ := lookup?_method p context operand id named
    have plainCall : Undotted c.owner ∧ Undotted c.name := bound.coded.plain ref context _ site
    have parts := Key.method_injective _ _ _ _ _ _ plainCall.1 plain_owner plainCall.2 plainName
      ((held c.key).mp key)
    change ((p.relabelMethod id owner m.name new m.descriptor).findMethodKey?
      (Key.method c.owner new c.descriptor)).map Target.method = _
    rw [index, parts.1, parts.2.2, if_pos rfl]
    rfl
  · intro ref context operand target own before site named
    refine lookup?_kept p _ context operand target (.method id) (fun _ => rfl) rfl
      (fun _ _ found _ => found) ?_ (fun _ _ _ _ missing => missing) named own
    intro key other present differ
    rw [index, if_neg, if_neg]
    · exact present
    · rintro ⟨rfl, holder⟩
      rw [present] at holder
      exact differ (congrArg Target.method (Option.some.inj holder))
    · rintro rfl
      rw [free] at present
      cases present

section Detach

variable (p : Program)

theorem find_field_key?_detach (id : FieldId) (owner : ClassId) (old key : String) :
    (p.detachField id owner old).findFieldKey? key =
      if old = key ∧ p.findFieldKey? old = some id then none else p.findFieldKey? key :=
  Table.get?_erase_if p.index.fields old key id

theorem find_method_key?_detach (id : MethodId) (owner : ClassId) (old key : String) :
    (p.detachMethod id owner old).findMethodKey? key =
      if old = key ∧ p.findMethodKey? old = some id then none else p.findMethodKey? key :=
  Table.get?_erase_if p.index.methods old key id

theorem find_field_key?_place (id : FieldId) (owner : ClassId) (new key : String) (field : Field) :
    (p.placeField id owner new field).findFieldKey? key =
      if new = key then some id else p.findFieldKey? key :=
  Table.get?_insert p.index.fields new key id

theorem find_method_key?_place (id : MethodId) (owner : ClassId) (new key : String) (method : Method) :
    (p.placeMethod id owner new method).findMethodKey? key =
      if new = key then some id else p.findMethodKey? key :=
  Table.get?_insert p.index.methods new key id

theorem lookup?_detach_field (id : FieldId) (owner : ClassId) (old : String) (context : ClassId)
    (operand : Operand) (target : Target) (named : p.lookup? (some context) operand = some target)
    (other : target ≠ .field id) :
    (p.detachField id owner old).lookup? (some context) operand = some target := by
  refine lookup?_kept p _ context operand target (.field id) (super?_detach_field p id owner old) rfl
    ?_ (fun _ _ found _ => found) ?_ named other
  · intro key i present differ
    rw [find_field_key?_detach, if_neg]
    · exact present
    · rintro ⟨rfl, holder⟩
      rw [present] at holder
      exact differ (congrArg Target.field (Option.some.inj holder))
  · intro u i _ _ missing
    rw [find_field_key?_detach]
    split
    · rfl
    · exact missing

theorem lookup?_detach_method (id : MethodId) (owner : ClassId) (old : String) (context : ClassId)
    (operand : Operand) (target : Target) (named : p.lookup? (some context) operand = some target)
    (other : target ≠ .method id) :
    (p.detachMethod id owner old).lookup? (some context) operand = some target := by
  refine lookup?_kept p _ context operand target (.method id) (super?_detach_method p id owner old)
    rfl (fun _ _ found _ => found) ?_ (fun _ _ _ _ missing => missing) named other
  intro key i present differ
  rw [find_method_key?_detach, if_neg]
  · exact present
  · rintro ⟨rfl, holder⟩
    rw [present] at holder
    exact differ (congrArg Target.method (Option.some.inj holder))

theorem lookup?_place_field (id : FieldId) (owner : ClassId) (new : String) (field : Field)
    (context : ClassId) (operand : Operand) (target : Target) (free : p.findFieldKey? new = none)
    (passed : ∀ u i, operand = .field u → target = .field i → p.findFieldKey? u.key = none →
      u.key ≠ new)
    (named : p.lookup? (some context) operand = some target) (other : target ≠ .field id) :
    (p.placeField id owner new field).lookup? (some context) operand = some target := by
  refine lookup?_kept p _ context operand target (.field id)
    (super?_place_field p id owner new field) rfl ?_ (fun _ _ found _ => found) ?_ named other
  · intro key i present _
    rw [find_field_key?_place, if_neg]
    · exact present
    · rintro rfl
      rw [free] at present
      cases present
  · intro u i isField isTarget missing
    rw [find_field_key?_place, if_neg (passed u i isField isTarget missing).symm]
    exact missing

theorem lookup?_place_method (id : MethodId) (owner : ClassId) (new : String) (method : Method)
    (context : ClassId) (operand : Operand) (target : Target) (free : p.findMethodKey? new = none)
    (named : p.lookup? (some context) operand = some target) (other : target ≠ .method id) :
    (p.placeMethod id owner new method).lookup? (some context) operand = some target := by
  refine lookup?_kept p _ context operand target (.method id)
    (super?_place_method p id owner new method) rfl (fun _ _ found _ => found) ?_
    (fun _ _ _ _ missing => missing) named other
  intro key i present _
  rw [find_method_key?_place, if_neg]
  · exact present
  · rintro rfl
    rw [free] at present
    cases present

end Detach

theorem sound_move_field (p q : Program) (id : FieldId) (destination : ClassId) (bound : p.Bound)
    (done : p.moveField id destination = .ok q) : q.Sound ∧ q.Coded := by
  obtain ⟨f, owner, name, found, live, there, _, free, unbound, rfl⟩ :=
    move_field_ok p q id destination bound.indexed.is_owned done
  have plainName := bound.indexed.plain_owner p destination name there
  have plainField := bound.indexed.plain_field_name p id f found
  have recorded : ∀ ref, ref ∈ f.references.toList ↔ p.Holds (.field id) ref := by
    intro ref
    rw [OrderedSet.mem_to_list, Holds, records, found]
    rfl
  have held : ∀ target ref, ((p.detachField id f.owner (Key.field owner f.name)).placeField id
      destination (Key.field name f.name) { f with references := .empty }).Holds target ref →
      p.Holds target ref ∧ target ≠ .field id := by
    intro target ref holds
    rw [Holds, records_place_field] at holds
    by_cases own : target = .field id
    · rw [if_pos own] at holds
      exact absurd holds (OrderedSet.not_mem_empty ref)
    · rw [if_neg own, records_detach_field, if_neg own] at holds
      exact ⟨holds, own⟩
  apply sound_retargets
  · intro o
    cases o <;> rfl
  · exact plain_map_field_use _ fun u parts => ⟨plainName, parts.2⟩
  · intro target ref holds
    obtain ⟨before, other⟩ := held target ref holds
    obtain ⟨context, operand, site, named⟩ := bound.sound.site target ref before
    rw [target?_eq]
    refine (congrArg (Option.bind · _) site).trans ?_
    refine lookup?_place_field _ id destination _ _ context operand target
      (find_field_key?_detach_field p id f.owner _ _ free) ?_
      (lookup?_detach_field p id f.owner _ context operand target named other) other
    intro u i isField isTarget _
    subst isField isTarget
    by_cases missing : p.findFieldKey? u.key = none
    · exact unbound_of_rebinds p id name f.name bound.indexed plainName plainField unbound ref context
        u i (fun same => other (congrArg Target.field same)) site before named missing
    · intro taken
      rw [taken] at missing
      exact missing free
  · exact bound.coded
  · intro ref member target holds
    obtain ⟨before, other⟩ := held target ref holds
    exact absurd (bound.sound.only target (.field id) ref before ((recorded ref).mp member)) other

theorem sound_move_method (p q : Program) (id : MethodId) (destination : ClassId) (bound : p.Bound)
    (done : p.moveMethod id destination = .ok q) : q.Sound ∧ q.Coded := by
  obtain ⟨m, owner, target, moved, found, live, there, _, free, movedFound, movedNaming, rfl⟩ :=
    move_method_ok p q id destination bound.indexed.is_owned done
  have same := forget_references_frame p id m.owner
  have plainName : Undotted target.name :=
    bound.indexed.plain_owner p destination target.name (by rw [className?, there]; rfl)
  have forgotten := holds_forget_references p id m bound.sound found
  have forgottenCoded := same.coded bound.coded
  have recorded : ∀ ref, ref ∈ moved.invocations.toList →
      (p.forgetReferences id m.owner).Holds (.method id) ref := by
    intro ref member
    rw [Holds, records, movedFound]
    exact (OrderedSet.mem_to_list _ _).mp member
  have freeKey : ((p.forgetReferences id m.owner).detachMethod id m.owner
      (Key.method owner m.name m.descriptor)).findMethodKey?
        (Key.method target.name m.name m.descriptor) = none := by
    refine find_method_key?_detach_method _ id m.owner _ _ ?_
    rw [findMethodKey?, same.index]
    exact free
  have held : ∀ entity ref, (((p.forgetReferences id m.owner).detachMethod id m.owner
      (Key.method owner m.name m.descriptor)).placeMethod id destination
        (Key.method target.name m.name m.descriptor) { moved with invocations := .empty }).Holds
          entity ref → (p.forgetReferences id m.owner).Holds entity ref ∧ entity ≠ .method id := by
    intro entity ref holds
    rw [Holds, records_place_method] at holds
    by_cases own : entity = .method id
    · rw [if_pos own] at holds
      exact absurd holds (OrderedSet.not_mem_empty ref)
    · rw [if_neg own, records_detach_method, if_neg own] at holds
      exact ⟨holds, own⟩
  have placed := sound_retargets (((p.forgetReferences id m.owner).detachMethod id m.owner
    (Key.method owner m.name m.descriptor)).placeMethod id destination
      (Key.method target.name m.name m.descriptor) { moved with invocations := .empty })
    (mapCall fun call => { call with owner := target.name, isInterface := target.access.isInterface })
    moved.invocations.toList ?_ ?_ ?_ ?_ ?_
  · exact sound_resolve_method _ id placed.1 placed.2
  · intro o
    cases o <;> rfl
  · exact plain_map_call _ fun c parts => ⟨plainName, parts.2⟩
  · intro entity ref holds
    obtain ⟨kept, other⟩ := held entity ref holds
    obtain ⟨before, elsewhere⟩ := forgotten entity ref kept
    obtain ⟨context, operand, site, named⟩ := bound.sound.site entity ref before
    rw [target?_eq, site?_place_method _ id destination _ _ ref elsewhere,
      site?_detach_method _ id m.owner _ ref elsewhere, same.sites, site]
    refine lookup?_place_method _ id destination _ _ context operand entity freeKey ?_ other
    refine lookup?_detach_method _ id m.owner _ context operand entity ?_ other
    rw [same.lookup?]
    exact named
  · exact coded_place_method _ id destination _ _ (coded_detach_method _ id m.owner _ forgottenCoded)
      (forgottenCoded id moved movedFound)
  · intro ref member entity holds
    obtain ⟨kept, other⟩ := held entity ref holds
    exact absurd (bound.sound.only entity (.method id) ref (forgotten entity ref kept).1
      (forgotten _ ref (recorded ref member)).1) other

theorem sound_delete_field [Libraries] (p : Program) (q : Logged Program) (id : FieldId)
    (bound : p.Bound) (done : p.deleteField id = .ok q) : q.value.Sound ∧ q.value.Coded := by
  obtain ⟨f, owner, found, live, rfl⟩ := delete_field_ok p q id bound.indexed.is_owned done
  obtain ⟨coded, lookups, records, sites⟩ :=
    remove_instructions_frame p f.references.toList bound.coded
  have kept : ((p.removeInstructions f.references.toList).1.detachField id f.owner
      (Key.field owner f.name)).Sound := by
    intro target ref holds
    rw [Holds, records_detach_field] at holds
    by_cases own : target = .field id
    · rw [if_pos own] at holds
      exact absurd holds (OrderedSet.not_mem_empty ref)
    · rw [if_neg own, records] at holds
      obtain ⟨context, operand, site, named⟩ := bound.sound.site target ref holds
      have apart : ref ∉ f.references.toList := fun member => own
        (bound.sound.only target (.field id) ref holds (by
          rw [Holds, Program.records, found]
          exact (OrderedSet.mem_to_list _ _).mp member))
      have stays := sites ref
      rw [if_neg apart, site] at stays
      rw [target?_eq]
      refine (congrArg (Option.bind · _) stays).trans ?_
      exact lookup?_detach_field _ id f.owner _ context operand target
        ((lookups context operand).trans named) own
  exact ⟨sound_refresh _ _ kept, (same_sites_refresh _ _).coded coded⟩

theorem sound_delete_method [Libraries] (p : Program) (q : Logged Program) (id : MethodId)
    (bound : p.Bound) (done : p.deleteMethod id = .ok q) : q.value.Sound ∧ q.value.Coded := by
  obtain ⟨m, owner, found, live, rfl⟩ := delete_method_ok p q id bound.indexed.is_owned done
  have same := forget_references_frame p id m.owner
  have forgotten := holds_forget_references p id m bound.sound found
  obtain ⟨coded, lookups, records, sites⟩ :=
    remove_instructions_frame (p.forgetReferences id m.owner)
      (m.invocations.toList.filter (·.method ≠ id)) (same.coded bound.coded)
  have kept : (((p.forgetReferences id m.owner).removeInstructions
      (m.invocations.toList.filter (·.method ≠ id))).1.detachMethod id m.owner
        (Key.method owner m.name m.descriptor)).Sound := by
    intro target ref holds
    rw [Holds, records_detach_method] at holds
    by_cases own : target = .method id
    · rw [if_pos own] at holds
      exact absurd holds (OrderedSet.not_mem_empty ref)
    · rw [if_neg own, records] at holds
      obtain ⟨before, elsewhere⟩ := forgotten target ref holds
      obtain ⟨context, operand, site, named⟩ := bound.sound.site target ref before
      have apart : ref ∉ m.invocations.toList.filter (·.method ≠ id) := fun member => own
        (bound.sound.only target (.method id) ref before (by
          rw [Holds, Program.records, found]
          exact (OrderedSet.mem_to_list _ _).mp (List.mem_filter.mp member).1))
      have stays := sites ref
      rw [if_neg apart, same.sites, site] at stays
      rw [target?_eq, site?_detach_method _ id m.owner _ ref elsewhere, stays]
      refine lookup?_detach_method _ id m.owner _ context operand target ?_ own
      rw [lookups, same.lookup?]
      exact named
  exact ⟨sound_refresh _ _ kept,
    (same_sites_refresh _ _).coded (coded_detach_method _ id m.owner _ coded)⟩

theorem holds_forget_all (p : Program) (id : MethodId) (context : ClassId)
    (removed : List Instruction) (target : Target) (ref : InsnRef)
    (holds : (p.forgetAll id context removed).Holds target ref) :
    p.Holds target ref ∧ ∀ i ∈ removed, i.operand.isReference = true → ref = ⟨id, i.id⟩ →
      p.lookup? (some context) i.operand ≠ some target := by
  rw [forgetAll, ← List.foldl_filter] at holds
  obtain ⟨before, forgotten⟩ := holds_forgets p id context _ target ref holds
  exact ⟨before, fun i member isReference =>
    forgotten i (List.mem_filter.mpr ⟨member, isReference⟩)⟩

theorem same_sites_forget_all (p : Program) (id : MethodId) (context : ClassId)
    (removed : List Instruction) : SameSites p (p.forgetAll id context removed) := by
  refine .foldl _ (fun q (i : Instruction) => ?_) removed p
  split
  · exact same_sites_forget q context _ i.operand
  · exact .refl q

theorem sound_delete_instructions [Libraries] (p : Program) (q : Logged (Program × Nat)) (id : MethodId)
    (insns : List InsnId) (bound : p.Bound) (done : p.deleteInstructions id insns = .ok q) :
    q.value.1.Sound ∧ q.value.1.Coded := by
  obtain ⟨m, found, rfl⟩ := delete_instructions_ok p q id insns done
  obtain ⟨fits, gets, removed⟩ := m.code.cut_spec insns (bound.coded id m found)
  let shortened := p.updateMethod id fun m' => { m' with code := (m.code.cut insns).1 }
  have live : shortened.method? id = some { m with code := (m.code.cut insns).1 } := by
    rw [method?_update_method, if_pos rfl, found]
    rfl
  have coded : shortened.Coded := by
    intro other m' found'
    by_cases same : id = other
    · subst same
      rw [live] at found'
      cases found'
      exact fits
    · rw [method?_update_method, if_neg same] at found'
      exact bound.coded other m' found'
  have lookups : ∀ context operand, shortened.lookup? (some context) operand =
      p.lookup? (some context) operand := lookup?_congr p _ rfl fun _ => rfl
  have same := same_sites_forget_all shortened id m.owner (m.code.cut insns).2.reverse
  have kept : (shortened.forgetAll id m.owner (m.code.cut insns).2.reverse).Sound := by
    intro target ref holds
    obtain ⟨before, forgotten⟩ := holds_forget_all shortened id m.owner _ target ref holds
    have beforeAll : p.Holds target ref := by
      rw [Holds, records_update_method p id _ (by intro m'; rfl)] at before
      exact before
    obtain ⟨context, operand, site, named⟩ := bound.sound.site target ref beforeAll
    have stays : shortened.site? ref = some (context, operand) := by
      by_cases own : id = ref.method
      · obtain ⟨m', live', rest⟩ := Option.bind_eq_some_iff.mp site
        rw [← own, found] at live'
        cases live'
        obtain ⟨i, present, pair⟩ := Option.map_eq_some_iff.mp rest
        cases pair
        rw [site?, ← own, live, Option.bind_some, gets]
        by_cases cut : ref.insn ∈ insns
        · have isInsn := (Stream.mem_of_get? _ _ _ present).2
          have isRef : ref = ⟨id, i.id⟩ := by
            obtain ⟨method, insn⟩ := ref
            cases own
            cases isInsn
            rfl
          refine absurd ?_ (forgotten i (List.mem_reverse.mpr (removed ref.insn cut i present))
            (is_reference_of_lookup? p m.owner i.operand target named) isRef)
          rw [lookups]
          exact named
        · rw [if_neg cut, present]
          rfl
      · rw [site?, method?_update_method, if_neg own]
        exact site
    rw [target?_eq, same.sites, stays]
    refine (same.lookup? context operand).trans ?_
    rw [lookups]
    exact named
  exact ⟨sound_refresh _ _ kept, (same_sites_refresh _ _).coded (same.coded coded)⟩

section Bound

variable (p q : Program) (bound : p.Bound)

include bound

theorem bound_rename_field (id : FieldId) (new : String) (plain : Undotted new)
    (done : p.renameField id new = .ok q) : q.Bound := by
  obtain ⟨sound, coded⟩ := sound_rename_field p q id new bound plain done
  exact ⟨indexed_rename_field p q id new bound.indexed plain done, sound, coded⟩

theorem bound_rename_method (id : MethodId) (new : String) (plain : Undotted new)
    (done : p.renameMethod id new = .ok q) : q.Bound := by
  obtain ⟨sound, coded⟩ := sound_rename_method p q id new bound plain done
  exact ⟨indexed_rename_method p q id new bound.indexed plain done, sound, coded⟩

theorem bound_move_field (id : FieldId) (destination : ClassId)
    (done : p.moveField id destination = .ok q) : q.Bound := by
  obtain ⟨sound, coded⟩ := sound_move_field p q id destination bound done
  exact ⟨indexed_move_field p q id destination bound.indexed done, sound, coded⟩

theorem bound_move_method (id : MethodId) (destination : ClassId)
    (done : p.moveMethod id destination = .ok q) : q.Bound := by
  obtain ⟨sound, coded⟩ := sound_move_method p q id destination bound done
  exact ⟨indexed_move_method p q id destination bound.indexed done, sound, coded⟩

end Bound

theorem bound_perform [Libraries] (p : Program) (e : MemberEdit) (bound : p.Bound) (plain : e.Plain) :
    (p.perform e).Bound := by
  simp only [perform]
  cases done : p.edit e with
  | error _ => exact bound
  | ok q =>
      cases e with
      | renameField id new => exact bound_rename_field p q bound id new plain done
      | renameMethod id new => exact bound_rename_method p q bound id new plain done
      | moveField id destination => exact bound_move_field p q bound id destination done
      | moveMethod id destination => exact bound_move_method p q bound id destination done
      | deleteField id =>
          obtain ⟨logged, deleted, rfl⟩ := except_map _ _ _ done
          obtain ⟨sound, coded⟩ := sound_delete_field p logged id bound deleted
          exact ⟨indexed_delete_field p logged id bound.indexed deleted, sound, coded⟩
      | deleteMethod id =>
          obtain ⟨logged, deleted, rfl⟩ := except_map _ _ _ done
          obtain ⟨sound, coded⟩ := sound_delete_method p logged id bound deleted
          exact ⟨indexed_delete_method p logged id bound.indexed deleted, sound, coded⟩
      | deleteInstructions id insns =>
          obtain ⟨logged, deleted, rfl⟩ := except_map _ _ _ done
          obtain ⟨sound, coded⟩ := sound_delete_instructions p logged id insns bound deleted
          exact ⟨indexed_delete_instructions p logged id insns bound.indexed deleted, sound, coded⟩

end Program

end JvmEdit
