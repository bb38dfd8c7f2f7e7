import JvmEdit.Proofs.Edit.InPlace
import JvmEdit.Proofs.Program.Edits
set_option autoImplicit false

namespace JvmEdit

namespace Program

-- A field taken out of the index, of its class and of the program. A class that is not loaded has
-- no name to find an entry by.
def withdrawField (p : Program) (id : FieldId) (f : Field) : Program :=
  let unindexed :=
    match p.className? f.owner with
    | some owner => p.updateIndex (·.eraseField (Key.field owner f.name) id)
    | none => p
  let unlisted := unindexed.updateClass f.owner fun c =>
    { c with fields := c.fields.filter (· ≠ id) }
  { unlisted with fields := unlisted.fields.erase id }

def unlistMethod (p : Program) (id : MethodId) (m : Method) : Program :=
  let unindexed :=
    match p.className? m.owner with
    | some owner => p.updateIndex (·.eraseMethod (Key.method owner m.name m.descriptor) id)
    | none => p
  unindexed.updateClass m.owner fun c => { c with methods := c.methods.filter (· ≠ id) }

def withdrawMethod (p : Program) (id : MethodId) (m : Method) : Program :=
  let unlisted := p.unlistMethod id m
  { unlisted with methods := unlisted.methods.erase id }

section Withdraw

variable (p : Program)

theorem class_name?_withdraw_field (id : FieldId) (f : Field) (c : ClassId) :
    (p.withdrawField id f).className? c = p.className? c := by
  unfold withdrawField
  cases p.className? f.owner with
  | none => exact class_name?_update_class p f.owner c _ fun _ => rfl
  | some owner => exact class_name?_detach_field p id f.owner (Key.field owner f.name) c

theorem find_field_key?_withdraw_field (id : FieldId) (f : Field) (key : String)
    (free : p.findFieldKey? key = none) : (p.withdrawField id f).findFieldKey? key = none := by
  unfold withdrawField
  cases p.className? f.owner with
  | none => exact free
  | some owner => exact find_field_key?_detach_field p id f.owner (Key.field owner f.name) key free

theorem method?_unlist_method (id : MethodId) (m : Method) (other : MethodId) :
    (p.unlistMethod id m).method? other = p.method? other := by
  unfold unlistMethod
  cases p.className? m.owner <;> rfl

theorem class_name?_withdraw_method (id : MethodId) (m : Method) (c : ClassId) :
    (p.withdrawMethod id m).className? c = p.className? c := by
  unfold withdrawMethod unlistMethod
  cases p.className? m.owner with
  | none => exact class_name?_update_class p m.owner c _ fun _ => rfl
  | some owner => exact class_name?_detach_method p id m.owner (Key.method owner m.name m.descriptor) c

theorem find_method_key?_withdraw_method (id : MethodId) (m : Method) (key : String)
    (free : p.findMethodKey? key = none) : (p.withdrawMethod id m).findMethodKey? key = none := by
  unfold withdrawMethod unlistMethod
  cases p.className? m.owner with
  | none => exact free
  | some owner =>
      exact find_method_key?_detach_method p id m.owner (Key.method owner m.name m.descriptor) key free

theorem attach_field_withdraw_field (id : FieldId) (destination : ClassId) (f : Field) (name : String)
    (target : p.className? destination = some name)
    (free : p.findFieldKey? (Key.field name f.name) = none) :
    (p.withdrawField id f).attachField destination id { f with references := .empty } =
      .ok ((p.withdrawField id f).placeField id destination (Key.field name f.name)
        { f with references := .empty }) :=
  attach_field_free (p.withdrawField id f) destination id { f with references := .empty } name
    ((p.class_name?_withdraw_field id f destination).trans target)
    (p.find_field_key?_withdraw_field id f _ free)

theorem attach_method_withdraw_method (id : MethodId) (destination : ClassId) (m moved : Method)
    (name : String) (target : p.className? destination = some name) (label : moved.naming = m.naming)
    (free : p.findMethodKey? (Key.method name m.name m.descriptor) = none) :
    (p.withdrawMethod id m).attachMethod destination id { moved with invocations := .empty } =
      .ok ((p.withdrawMethod id m).placeMethod id destination (Key.method name moved.name
        moved.descriptor) { moved with invocations := .empty }) := by
  have sameName : moved.name = m.name := congrArg MethodNaming.name label
  have sameDescriptor : moved.descriptor = m.descriptor := congrArg MethodNaming.descriptor label
  refine attach_method_free (p.withdrawMethod id m) destination id
    { moved with invocations := .empty } name
    ((p.class_name?_withdraw_method id m destination).trans target)
    (p.find_method_key?_withdraw_method id m _ ?_)
  rw [sameName, sameDescriptor]
  exact free

end Withdraw

-- What an admitted move of a field comes to.
def transferField (p : Program) (id : FieldId) (destination : ClassId) (f : Field) (name : String) :
    Program :=
  f.references.toList.foldl (retarget · (mapFieldUse fun use => { use with owner := name }))
    ((p.withdrawField id f).placeField id destination (Key.field name f.name)
      { f with references := .empty })

theorem map_attach_field_withdraw_field (p : Program) (id : FieldId) (destination : ClassId) (f : Field)
    (name : String) (target : p.className? destination = some name)
    (free : p.findFieldKey? (Key.field name f.name) = none) :
    ((p.withdrawField id f).attachField destination id { f with references := .empty }).map
        (fun attached => f.references.toList.foldl
          (retarget · (mapFieldUse fun use => { use with owner := name })) attached) =
      .ok (p.transferField id destination f name) :=
  congrArg (Except.map _) (p.attach_field_withdraw_field id destination f name target free)

def transferMethod (p : Program) (id : MethodId) (destination : ClassId) (m : Method)
    (target : Class) : Program :=
  let forgotten := p.forgetReferences id m.owner
  let moved := (forgotten.method? id).getD m
  let placed := (forgotten.withdrawMethod id m).placeMethod id destination
    (Key.method target.name moved.name moved.descriptor) { moved with invocations := .empty }
  ((moved.invocations.toList.foldl (retarget · (mapCall fun call =>
    { call with owner := target.name, isInterface := target.access.isInterface })) placed).resolveMethod
      id).1

theorem method?_forget_references (p : Program) (id : MethodId) (m : Method) (context : ClassId)
    (found : p.method? id = some m) :
    ∃ moved, (p.forgetReferences id context).method? id = some moved ∧ moved.naming = m.naming := by
  have naming := (same_names_forget_references p id context).methods id
  rw [methodNaming?, methodNaming?, found] at naming
  exact Option.map_eq_some_iff.mp naming

theorem attach_method_forget_references (p : Program) (id : MethodId) (destination : ClassId)
    (m moved : Method) (target : Class) (there : p.class? destination = some target)
    (label : moved.naming = m.naming)
    (free : p.findMethodKey? (Key.method target.name m.name m.descriptor) = none) :
    ((p.forgetReferences id m.owner).withdrawMethod id m).attachMethod destination id
        { moved with invocations := .empty } =
      .ok (((p.forgetReferences id m.owner).withdrawMethod id m).placeMethod id destination
        (Key.method target.name moved.name moved.descriptor) { moved with invocations := .empty }) := by
  have same := same_names_forget_references p id m.owner
  refine attach_method_withdraw_method _ id destination m moved target.name ?_ label ?_
  · rw [same.class_name, className?, there]
    rfl
  · rw [findMethodKey?, same.index]
    exact free

theorem map_attach_method_withdraw_method (p : Program) (id : MethodId) (destination : ClassId)
    (m : Method) (target : Class) (found : p.method? id = some m)
    (there : p.class? destination = some target)
    (free : p.findMethodKey? (Key.method target.name m.name m.descriptor) = none) :
    let forgotten := p.forgetReferences id m.owner
    let moved := ((forgotten.unlistMethod id m).method? id).getD m
    ((forgotten.withdrawMethod id m).attachMethod destination id
        { moved with invocations := .empty }).map (fun attached =>
          ((moved.invocations.toList.foldl (retarget · (mapCall fun call =>
            { call with owner := target.name, isInterface := target.access.isInterface }))
              attached).resolveMethod id).1) =
      .ok (p.transferMethod id destination m target) := by
  obtain ⟨moved, stillThere, label⟩ := p.method?_forget_references id m m.owner found
  dsimp only
  rw [method?_unlist_method, transferMethod, stillThere]
  exact congrArg (Except.map _)
    (p.attach_method_forget_references id destination m moved target there label free)

section Moves

variable (p q : Program) (destination : ClassId)

theorem move_field_transfers (id : FieldId) (done : p.moveField id destination = .ok q) :
    ∃ f name, p.field? id = some f ∧ p.className? destination = some name ∧
      q = p.transferField id destination f name := by
  simp only [moveField] at done
  split at done
  · cases done
  · rename_i f found
    split at done
    · cases done
    · split at done
      · cases done
      · rename_i name target
        split at done
        · cases done
        · rename_i allowed
          simp only [Bool.or_eq_true, not_or, Bool.not_eq_true] at allowed
          have free : p.findFieldKey? (Key.field name f.name) = none := by simpa using allowed.1
          have moved := p.map_attach_field_withdraw_field id destination f name target free
          exact ⟨f, name, found, target, Except.ok.inj (done.symm.trans moved)⟩

theorem move_method_transfers (id : MethodId) (done : p.moveMethod id destination = .ok q) :
    ∃ m target, p.method? id = some m ∧ p.class? destination = some target ∧
      q = p.transferMethod id destination m target := by
  simp only [moveMethod] at done
  split at done
  · cases done
  · rename_i m found
    split at done
    · cases done
    · split at done
      · cases done
      · split at done
        · cases done
        · rename_i target there
          split at done
          · cases done
          · rename_i allowed
            have free : p.findMethodKey? (Key.method target.name m.name m.descriptor) = none := by
              simpa using allowed
            have moved := p.map_attach_method_withdraw_method id destination m target found there free
            exact ⟨m, target, found, there, Except.ok.inj (done.symm.trans moved)⟩

end Moves

end Program

theorem Logged.map_eq {α β : Type} (f : α → β) (x : Logged α) : f <$> x = ⟨f x.value, x.warnings⟩ :=
  congrArg (Logged.mk (f x.value)) (List.append_nil x.warnings)

namespace Editing

theorem perform_read {α : Type} (f : Program → Editing α) (s : Logged Program) :
    (current >>= f).perform s = (f s.value).perform s := rfl

theorem perform_read_bind {α β : Type} (f : Program → Editing α) (g : α → Editing β)
    (s : Logged Program) :
    (current >>= f >>= g).perform s = (f s.value >>= g).perform s := rfl

theorem perform_change {α : Type} (f : Program → Program) (x : Unit → Editing α)
    (s : Logged Program) :
    (change f >>= x).perform s = (x ()).perform { s with value := f s.value } := rfl

theorem perform_remove_instructions {α : Type} (refs : List InsnRef)
    (f : OrderedSet MethodId → Editing α) (s : Logged Program) :
    (removeInstructions refs >>= f).perform s = (f (s.value.removeInstructions refs).2).perform
      { s with value := (s.value.removeInstructions refs).1 } := rfl

theorem perform_rename_field (id : FieldId) (new : String) (s : Logged Program) :
    (renameField id new).perform s =
      InPlace.settle s ((s.value.renameField id new).map fun q => ((), { s with value := q })) := by
  rw [renameField, Program.renameField, perform_read]
  cases s.value.field? id with
  | none => rfl
  | some f =>
      dsimp only
      split
      · rfl
      · rw [perform_read]
        cases s.value.className? f.owner with
        | none => rfl
        | some owner =>
            dsimp only
            rw [perform_read]
            split
            · rfl
            · rw [perform_read]
              cases s.value.stolenKey? id f.references new with
              | some key => rfl
              | none =>
                  dsimp only
                  rw [perform_read]
                  split <;> rfl

theorem perform_rename_method (id : MethodId) (new : String) (s : Logged Program) :
    (renameMethod id new).perform s =
      InPlace.settle s ((s.value.renameMethod id new).map fun q => ((), { s with value := q })) := by
  rw [renameMethod, Program.renameMethod, perform_read]
  cases s.value.method? id with
  | none => rfl
  | some m =>
      dsimp only
      split
      · rfl
      · split
        · rfl
        · rw [perform_read]
          cases s.value.className? m.owner with
          | none => rfl
          | some owner =>
              dsimp only
              rw [perform_read]
              split <;> rfl

theorem perform_rename_class (id : ClassId) (new : String) (s : Logged Program) :
    (renameClass id new).perform s =
      InPlace.settle s ((s.value.renameClass id new).map fun q => ((), { s with value := q })) := by
  rw [renameClass, Program.renameClass, perform_read]
  cases s.value.className? id with
  | none => rfl
  | some old =>
      dsimp only
      split
      · rfl
      · rw [perform_read]
        split
        · rfl
        · rw [perform_read]
          cases Program.firstRepeated? (s.value.methodKeysAfter ⟨old, new⟩ id) [] with
          | some key => rfl
          | none => rfl

theorem perform_delete_field [Libraries] (id : FieldId) (s : Logged Program) :
    (deleteField id).perform s = InPlace.settle s ((s.value.deleteField id).map fun q =>
      ((), ⟨q.value, s.warnings ++ q.warnings⟩)) := by
  rw [deleteField, Program.deleteField, perform_read]
  cases s.value.field? id with
  | none => rfl
  | some f =>
      dsimp only
      rw [perform_remove_instructions, perform_change, perform_read]
      dsimp only
      cases ((s.value.removeInstructions f.references.toList).1.updateClass f.owner fun c =>
          { c with fields := c.fields.filter (· ≠ id) }).className? f.owner with
      | none => rfl
      | some owner => rfl

theorem perform_delete_method [Libraries] (id : MethodId) (s : Logged Program) :
    (deleteMethod id).perform s = InPlace.settle s ((s.value.deleteMethod id).map fun q =>
      ((), ⟨q.value, s.warnings ++ q.warnings⟩)) := by
  rw [deleteMethod, Program.deleteMethod, perform_read]
  cases s.value.method? id with
  | none => rfl
  | some m =>
      dsimp only
      rw [perform_change, perform_remove_instructions, perform_change, perform_read]
      dsimp only
      cases (((s.value.forgetReferences id m.owner).removeInstructions
          (m.invocations.toList.filter (·.method ≠ id))).1.updateClass m.owner fun c =>
            { c with methods := c.methods.filter (· ≠ id) }).className? m.owner with
      | none => rfl
      | some owner => rfl

theorem perform_edit_body [Libraries] (id : MethodId) (f : Method → Method) (s : Logged Program) :
    (editBody id f).perform s = InPlace.settle s ((s.value.editBody id f).map fun q =>
      ((), ⟨q.value, s.warnings ++ q.warnings⟩)) := by
  rw [editBody, Program.editBody, perform_read]
  cases s.value.method? id with
  | none => rfl
  | some m => rfl

theorem perform_delete_instructions [Libraries] (id : MethodId) (insns : List InsnId)
    (s : Logged Program) : (deleteInstructions id insns).perform s =
      InPlace.settle s ((s.value.deleteInstructions id insns).map fun q =>
        (q.value.2, ⟨q.value.1, s.warnings ++ q.warnings⟩)) := by
  rw [deleteInstructions, perform_read]
  cases found : s.value.method? id with
  | none =>
      rw [Program.deleteInstructions, found]
      rfl
  | some m =>
      rw [Program.delete_instructions_eq s.value id insns m found, Logged.map_eq]
      rfl

theorem perform_attempt {α : Type} (f : Program → Except EditError Program) (q : Program)
    (x : Unit → Editing α) (s : Logged Program) (done : f s.value = .ok q) :
    (attempt f >>= x).perform s = (x ()).perform { s with value := q } := by
  rw [attempt, InPlace.perform_bind, perform_read, done]
  rfl

theorem admit_field_ok (id : FieldId) (destination : ClassId) (s t : Logged Program) (f : Field)
    (name : String) (done : (admitField id destination).perform s = (.ok (f, name), t)) :
    t = s ∧ s.value.field? id = some f ∧ s.value.className? destination = some name ∧
      s.value.findFieldKey? (Key.field name f.name) = none := by
  rw [admitField, perform_read] at done
  cases found : s.value.field? id with
  | none =>
      rw [found] at done
      cases done
  | some g =>
      rw [found] at done
      dsimp only at done
      split at done
      · cases done
      · rw [perform_read] at done
        cases target : s.value.className? destination with
        | none =>
            rw [target] at done
            cases done
        | some there =>
            rw [target] at done
            dsimp only at done
            rw [perform_read, perform_read] at done
            split at done
            · cases done
            · rename_i allowed
              cases done
              simp only [Bool.or_eq_true, not_or, Bool.not_eq_true, Option.isSome_eq_false_iff,
                Option.isNone_iff_eq_none] at allowed
              exact ⟨rfl, rfl, rfl, allowed.1⟩

theorem perform_withdraw_field (id : FieldId) (f : Field) (s : Logged Program)
    (found : s.value.field? id = some f) : (withdrawField id f).perform s =
      (.ok f, { s with value := s.value.withdrawField id f }) := by
  rw [withdrawField, Program.withdrawField, perform_read]
  cases s.value.className? f.owner with
  | none =>
      dsimp only
      rw [perform_change, perform_read]
      rw [show (s.value.updateClass f.owner _).field? id = some f from found]
      rfl
  | some owner =>
      dsimp only
      rw [perform_change, perform_change, perform_read]
      rw [show ((s.value.updateIndex _).updateClass f.owner _).field? id = some f from found]
      rfl

theorem perform_transfer_field (id : FieldId) (destination : ClassId) (s : Logged Program) (f : Field)
    (name : String) (found : s.value.field? id = some f)
    (target : s.value.className? destination = some name)
    (free : s.value.findFieldKey? (Key.field name f.name) = none) :
    (transferField id destination f name).perform s =
      (.ok (), { s with value := s.value.transferField id destination f name }) := by
  rw [transferField, InPlace.perform_bind, perform_withdraw_field id f s found]
  dsimp only
  rw [perform_attempt _ _ _ _ (s.value.attach_field_withdraw_field id destination f name target free)]
  rfl

theorem perform_move_field (id : FieldId) (destination : ClassId) (s : Logged Program) :
    (moveField id destination).perform s = InPlace.settle s
      ((s.value.moveField id destination).map fun q => ((), { s with value := q })) := by
  rw [moveField, admitField, Program.moveField, perform_read_bind]
  cases found : s.value.field? id with
  | none => rfl
  | some f =>
      dsimp only
      split
      · rfl
      · rw [perform_read_bind]
        cases target : s.value.className? destination with
        | none => rfl
        | some name =>
            dsimp only
            rw [perform_read_bind, perform_read_bind]
            split
            · rfl
            · rename_i allowed
              simp only [Bool.or_eq_true, not_or, Bool.not_eq_true, Option.isSome_eq_false_iff,
                Option.isNone_iff_eq_none] at allowed
              refine (perform_transfer_field id destination s f name found target allowed.1).trans ?_
              have moved := s.value.map_attach_field_withdraw_field id destination f name target allowed.1
              exact congrArg (fun r => InPlace.settle s (r.map fun q => ((), { s with value := q })))
                moved.symm

theorem admit_method_ok (id : MethodId) (destination : ClassId) (s t : Logged Program) (m : Method)
    (target : Class) (done : (admitMethod id destination).perform s = (.ok (m, target), t)) :
    t = s ∧ s.value.method? id = some m ∧ s.value.class? destination = some target ∧
      s.value.findMethodKey? (Key.method target.name m.name m.descriptor) = none := by
  rw [admitMethod, perform_read] at done
  cases found : s.value.method? id with
  | none =>
      rw [found] at done
      cases done
  | some n =>
      rw [found] at done
      dsimp only at done
      split at done
      · cases done
      · split at done
        · cases done
        · rw [perform_read] at done
          cases there : s.value.class? destination with
          | none =>
              rw [there] at done
              cases done
          | some c =>
              rw [there] at done
              dsimp only at done
              rw [perform_read] at done
              split at done
              · cases done
              · rename_i allowed
                cases done
                exact ⟨rfl, rfl, rfl, by simpa using allowed⟩

theorem perform_withdraw_method (id : MethodId) (m moved : Method) (s : Logged Program)
    (found : s.value.method? id = some moved) : (withdrawMethod id m).perform s =
      (.ok moved, { s with value := s.value.withdrawMethod id m }) := by
  rw [withdrawMethod, Program.withdrawMethod, Program.unlistMethod, perform_read]
  cases s.value.className? m.owner with
  | none =>
      dsimp only
      rw [perform_change, perform_read]
      rw [show (s.value.updateClass m.owner _).method? id = some moved from found]
      rfl
  | some owner =>
      dsimp only
      rw [perform_change, perform_change, perform_read]
      rw [show ((s.value.updateIndex _).updateClass m.owner _).method? id = some moved from found]
      rfl

theorem perform_transfer_method (id : MethodId) (destination : ClassId) (s : Logged Program)
    (m : Method) (target : Class) (found : s.value.method? id = some m)
    (there : s.value.class? destination = some target)
    (free : s.value.findMethodKey? (Key.method target.name m.name m.descriptor) = none) :
    (transferMethod id destination m target).perform s =
      (.ok (), { s with value := s.value.transferMethod id destination m target }) := by
  obtain ⟨moved, stillThere, label⟩ := s.value.method?_forget_references id m m.owner found
  have attached :=
    s.value.attach_method_forget_references id destination m moved target there label free
  rw [transferMethod, perform_change, InPlace.perform_bind,
    perform_withdraw_method id m moved _ stillThere]
  dsimp only
  rw [perform_attempt _ _ _ _ attached, Program.transferMethod, stillThere]
  rfl

theorem perform_move_method (id : MethodId) (destination : ClassId) (s : Logged Program) :
    (moveMethod id destination).perform s = InPlace.settle s
      ((s.value.moveMethod id destination).map fun q => ((), { s with value := q })) := by
  rw [moveMethod, admitMethod, Program.moveMethod, perform_read_bind]
  cases found : s.value.method? id with
  | none => rfl
  | some m =>
      dsimp only
      split
      · rfl
      · split
        · rfl
        · rw [perform_read_bind]
          cases there : s.value.class? destination with
          | none => rfl
          | some target =>
              dsimp only
              rw [perform_read_bind]
              split
              · rfl
              · rename_i allowed
                have free : s.value.findMethodKey? (Key.method target.name m.name m.descriptor) =
                    none := by simpa using allowed
                refine (perform_transfer_method id destination s m target found there free).trans ?_
                have moved :=
                  s.value.map_attach_method_withdraw_method id destination m target found there free
                exact congrArg (fun r => InPlace.settle s (r.map fun q => ((), { s with value := q })))
                  moved.symm

end Editing

end JvmEdit
