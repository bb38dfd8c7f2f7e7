import JvmEdit.Proofs.Flow.Derived
import JvmEdit.Proofs.Hierarchy.Relink
import JvmEdit.Proofs.Pass.Cutting
import JvmEdit.Proofs.Pass.Sequential
import JvmEdit.Proofs.Pass.Sparing
set_option autoImplicit false

namespace JvmEdit

namespace Program

section Edits

variable (p q : Program)

theorem class_ids_update_class (id : ClassId) (f : Class → Class) : (p.updateClass id f).classIds = p.classIds :=
  Table.keys_modify p.classes id f

theorem class_ids_rename_class (id : ClassId) (new : String) (done : p.renameClass id new = .ok q) :
    q.classIds = p.classIds := by
  obtain ⟨old, _, ⟨_, rfl⟩ | ⟨_, _, _, rfl⟩⟩ := rename_class_cases p id q new done
  · rfl
  · let r : Renaming := ⟨old, new⟩
    have headers : (p.rewriteHeaders id r).classIds = (p.retitleClass id r).classIds :=
      List.foldlRecOn (p.retitleClass id r).classIds _
        (motive := fun q => q.classIds = (p.retitleClass id r).classIds) rfl
        fun q same c _ => (class_ids_update_class q c r.classHeader).trans same
    calc (((p.rewriteHeaders id r).carryMembers id r).relinkClass id).classIds
      _ = ((p.rewriteHeaders id r).carryMembers id r).classIds := (same_names_relink_class _ id).classIds
      _ = (p.rewriteHeaders id r).classIds := (same_links_carry_members _ id r).classIds
      _ = (p.retitleClass id r).classIds := headers
      _ = (p.unlinkClass id).classIds := class_ids_update_class _ id _
      _ = p.classIds := (same_names_unlink_class p id).classIds

theorem class_ids_rename_field (id : FieldId) (new : String) (done : p.renameField id new = .ok q) :
    q.classIds = p.classIds := by
  obtain ⟨f, _, ⟨_, rfl⟩ | ⟨owner, _, _, _, _, _, rfl⟩⟩ := rename_field_ok p q id new done
  · rfl
  · exact (same_names_update_all (p.relabelField id owner f.name new) f.references _).classIds

theorem class_ids_rename_method (id : MethodId) (new : String) (done : p.renameMethod id new = .ok q) :
    q.classIds = p.classIds := by
  obtain ⟨m, _, _, ⟨_, rfl⟩ | ⟨owner, _, _, _, rfl⟩⟩ := rename_method_ok p q id new done
  · rfl
  · exact (same_names_update_all (p.relabelMethod id owner m.name new m.descriptor) m.invocations _).classIds

theorem class_ids_delete_field [Libraries] (id : FieldId) (f : Field) (owner : String)
    (logged : Logged Program)
    (live : p.field? id = some f) (loaded : p.className? f.owner = some owner)
    (done : p.deleteField id = .ok logged) : logged.value.classIds = p.classIds := by
  rw [delete_field_eq p id f owner live loaded] at done
  cases done
  have removed := (same_names_remove_instructions p f.references.toList).classIds
  exact (same_names_refresh _ _).classIds.trans ((class_ids_update_class _ f.owner _).trans removed)

theorem class_ids_delete_method [Libraries] (id : MethodId) (m : Method) (owner : String)
    (logged : Logged Program)
    (live : p.method? id = some m) (loaded : p.className? m.owner = some owner)
    (done : p.deleteMethod id = .ok logged) : logged.value.classIds = p.classIds := by
  rw [delete_method_eq p id m owner live loaded] at done
  cases done
  have forgotten := same_names_forget_references p id m.owner
  have removed := forgotten.trans (same_names_remove_instructions _ (m.invocations.toList.filter (·.method ≠ id)))
  exact (same_names_refresh _ _).classIds.trans ((class_ids_update_class _ m.owner _).trans removed.classIds)

theorem class_ids_delete_instructions [Libraries] (id : MethodId) (insns : List InsnId)
    (logged : Logged (Program × Nat))
    (done : p.deleteInstructions id insns = .ok logged) : logged.value.1.classIds = p.classIds := by
  obtain ⟨m, live, _⟩ := delete_instructions_ok p logged id insns done
  exact (same_names_delete_instructions live done).classIds

theorem class_ids_edit_body [Libraries] (id : MethodId) (f : Method → Method) (logged : Logged Program)
    (done : p.editBody id f = .ok logged) : logged.value.classIds = p.classIds := by
  obtain ⟨m, _, rfl⟩ := edit_body_ok p logged id f done
  exact (same_names_refresh (p.updateMethod id f) [id]).classIds

theorem class_ids_link_hierarchy : p.linkHierarchy.classIds = p.classIds := (same_names_link_hierarchy p).classIds

theorem class_ids_build_all [Libraries] : p.buildAll.value.classIds = p.classIds := by
  rw [build_all_program]
  exact List.foldlRecOn p.methodIds _ (motive := fun q : Program => q.classIds = p.classIds) rfl
    fun _ same _ _ => same

end Edits

end Program

namespace PassContext

variable (c c' : PassContext)

theorem class_ids_marked (edit : Except EditError Program) (mark : Program → Program) (target : ChangeTarget)
    (message : String) (marks : ∀ q, (mark q).classIds = q.classIds)
    (edits : ∀ q, edit = .ok q → q.classIds = c.program.classIds)
    (done : (do
      let program ← edit
      return (({ c with program } : PassContext).annotate mark).record target message) = .ok c') :
    c'.program.classIds = c.program.classIds := by
  cases edit with
  | error e => cases done
  | ok q =>
      cases done
      rcases program_marked c q mark target message with same | same
      · rw [same, edits q rfl]
      · rw [same, marks, edits q rfl]

theorem class_ids_rename_class (id : ClassId) (new : String) (done : c.renameClass id new = .ok c') :
    c'.program.classIds = c.program.classIds := by
  rw [renameClass] at done
  split at done
  · cases done
  · rename_i old _
    exact class_ids_marked c c' _ (·.annotateClass id (renamedFrom old)) _ _
      (fun q => q.class_ids_update_class id _) (fun q => c.program.class_ids_rename_class q id new) done

theorem class_ids_rename_field (id : FieldId) (new : String) (done : c.renameField id new = .ok c') :
    c'.program.classIds = c.program.classIds := by
  rw [renameField] at done
  split at done
  · rename_i owner name _
    exact class_ids_marked c c' _ (·.annotateField id (renamedFrom name)) _ _ (fun _ => rfl)
      (fun q => c.program.class_ids_rename_field q id new) done
  · cases done

theorem class_ids_rename_method (id : MethodId) (new : String) (done : c.renameMethod id new = .ok c') :
    c'.program.classIds = c.program.classIds := by
  rw [renameMethod] at done
  split at done
  · rename_i owner name descriptor _
    exact class_ids_marked c c' _ (·.annotateMethod id (renamedFrom name)) _ _ (fun _ => rfl)
      (fun q => c.program.class_ids_rename_method q id new) done
  · cases done

theorem class_ids_delete_field [Libraries] (id : FieldId) (done : c.deleteField id = .ok c') :
    c'.program.classIds = c.program.classIds := by
  rw [deleteField] at done
  split at done
  · cases done
  · rename_i target found
    obtain ⟨f, live, named⟩ := Option.bind_eq_some_iff.mp found
    obtain ⟨owner, loaded, _⟩ := Option.map_eq_some_iff.mp named
    obtain ⟨q, deleted, rfl⟩ := except_map (fun q => (c.accept q).record target "deleted") _ c' done
    exact Program.class_ids_delete_field _ id f owner q live loaded deleted

theorem class_ids_delete_method [Libraries] (id : MethodId) (done : c.deleteMethod id = .ok c') :
    c'.program.classIds = c.program.classIds := by
  rw [deleteMethod] at done
  split at done
  · cases done
  · rename_i target found
    obtain ⟨m, live, named⟩ := Option.bind_eq_some_iff.mp found
    obtain ⟨owner, loaded, _⟩ := Option.map_eq_some_iff.mp named
    obtain ⟨q, deleted, rfl⟩ := except_map (fun q => (c.accept q).record target "deleted") _ c' done
    exact Program.class_ids_delete_method _ id m owner q live loaded deleted

end PassContext

section Upholds

variable {ε α β : Type} {holds : Program → Prop}

-- What holds of the program before the work holds of it afterwards, however the work ends.
def Upholds (holds : Program → Prop) (work : ExceptT ε (StateM PassContext) α) : Prop :=
  ∀ c, holds c.program → Ends work c (fun _ after => holds after.program) fun _ after => holds after.program

theorem upholds_pure (a : α) : Upholds holds (pure a : ExceptT ε (StateM PassContext) α) :=
  fun _ start => start

theorem upholds_throw (e : ε) : Upholds holds (throw e : ExceptT ε (StateM PassContext) α) :=
  fun _ start => start

theorem upholds_bind {work : ExceptT ε (StateM PassContext) α} {next : α → ExceptT ε (StateM PassContext) β}
    (first : Upholds holds work) (later : ∀ a, Upholds holds (next a)) : Upholds holds (work >>= next) :=
  fun c start => ends_bind work next c _ (first c start) fun a after => later a after

theorem upholds_get : Upholds holds (get : ExceptT ε (StateM PassContext) PassContext) :=
  fun _ start => start

theorem upholds_modify (f : PassContext → PassContext) (step : ∀ c, holds c.program → holds (f c).program) :
    Upholds holds (modify f : ExceptT ε (StateM PassContext) PUnit) := step

theorem upholds_get_bind {next : PassContext → ExceptT ε (StateM PassContext) β}
    (later : ∀ c, holds c.program →
      Ends (next c) c (fun _ after => holds after.program) fun _ after => holds after.program) :
    Upholds holds (get >>= next) := by
  intro c start
  rw [Ends, run_get_bind]
  exact later c start

theorem upholds_for_m (f : α → ExceptT ε (StateM PassContext) PUnit) (each : ∀ x, Upholds holds (f x))
    (xs : List α) : Upholds holds (xs.forM f) := by
  induction xs with
  | nil => exact upholds_pure _
  | cons x xs ih => exact upholds_bind (each x) fun _ => ih

theorem Work.upholds_program : Upholds holds Work.program := upholds_bind upholds_get fun _ => upholds_pure _

theorem Work.upholds_edit (f : PassContext → Except EditError PassContext)
    (step : ∀ c c', holds c.program → f c = .ok c' → holds c'.program) : Upholds holds (Work.edit f) :=
  fun c start => Work.ends_edit f c _ _ (fun c' => step c c' start) fun _ => start

theorem Work.upholds_record (target : Option ChangeTarget) (message : String) :
    Upholds holds (Work.record target message) := by
  cases target with
  | none => exact upholds_pure ()
  | some target => exact upholds_modify _ fun _ start => start

end Upholds

section Visits

variable {kept : List ClassId}

-- These classes are live.
def Program.HasClasses (kept : List ClassId) (p : Program) : Prop := kept ⊆ p.classIds

theorem Program.HasClasses.of_same {p q : Program} (live : p.HasClasses kept) (same : q.classIds = p.classIds) :
    q.HasClasses kept := by
  rw [HasClasses, same]
  exact live

namespace Renamer

theorem upholds_rename_next (rename : PassContext → String → Except EditError PassContext)
    (candidate : Nat → String) (count : Nat)
    (edits : ∀ c c' new, rename c new = .ok c' → c'.program.classIds = c.program.classIds) :
    Upholds (Program.HasClasses kept) (renameNext rename candidate count) := by
  apply upholds_get_bind
  intro c live
  cases found : firstFree (fun n => rename c (candidate n)) count (countLimit - count) with
  | none => exact live
  | some ending =>
      obtain ⟨n, result⟩ := ending
      obtain ⟨rfl, _⟩ := first_free_some _ _ _ n result found
      refine ends_bind _ _ c _ (Work.ends_edit _ c (fun _ after => after.program.HasClasses kept) _ ?_ fun _ => live) ?_
      · exact fun c' done => live.of_same (edits c c' _ done)
      · exact fun _ after kept => kept

theorem upholds_visit_class (count : Nat) (id : ClassId) :
    Upholds (Program.HasClasses kept) (visitClass count id) := by
  refine upholds_bind Work.upholds_program fun p => ?_
  dsimp only
  split
  · exact upholds_pure count
  · split
    · exact upholds_rename_next _ _ count fun c c' new => c.class_ids_rename_class c' id new
    · exact upholds_pure count

theorem upholds_visit_field (count : Nat) (id : FieldId) :
    Upholds (Program.HasClasses kept) (visitField count id) := by
  refine upholds_bind Work.upholds_program fun p => ?_
  split
  · exact upholds_rename_next _ _ count fun c c' new => c.class_ids_rename_field c' id new
  · exact upholds_pure count

theorem upholds_visit_method (count : Nat) (id : MethodId) :
    Upholds (Program.HasClasses kept) (visitMethod count id) := by
  refine upholds_bind Work.upholds_program fun p => ?_
  split
  · exact upholds_rename_next _ _ count fun c c' new => c.class_ids_rename_method c' id new
  · exact upholds_pure count

end Renamer

namespace Remover

theorem upholds_settle (hidden : Option HiddenUses) : Upholds (Program.HasClasses kept) (settle hidden) := by
  cases hidden with
  | some uses => exact upholds_pure uses
  | none => exact upholds_bind Work.upholds_program fun _ => upholds_pure _

theorem upholds_visiting (hidden : Option HiddenUses) (goes : Program → HiddenUses → Bool)
    (remove : PassContext → Except EditError PassContext)
    (edits : ∀ c c', remove c = .ok c' → c'.program.classIds = c.program.classIds) :
    Upholds (Program.HasClasses kept) (do
      let held ← settle hidden
      let q ← Work.program
      if goes q held then Work.edit remove
      return some held : Work (Option HiddenUses)) := by
  refine upholds_bind (upholds_settle hidden) fun held => upholds_bind Work.upholds_program fun q => ?_
  dsimp only
  split
  · refine upholds_bind (Work.upholds_edit remove ?_) fun _ => upholds_pure (some held)
    exact fun c c' live done => live.of_same (edits c c' done)
  · exact upholds_pure (some held)

theorem upholds_visit_field [Libraries] (hidden : Option HiddenUses) (id : FieldId) :
    Upholds (Program.HasClasses kept) (visitField hidden id) :=
  upholds_visiting hidden (fun q held => (q.field? id).any (isUnusedField held)) (·.deleteField id)
    fun c c' => c.class_ids_delete_field c' id

theorem upholds_visit_method [Libraries] (hidden : Option HiddenUses) (id : MethodId) :
    Upholds (Program.HasClasses kept) (visitMethod hidden id) :=
  upholds_visiting hidden (fun q held => (q.method? id).any (isUnusedMethod held) && !q.isEntryPoint id &&
    !q.inOverrideFamily id) (·.deleteMethod id) fun c c' => c.class_ids_delete_method c' id

theorem upholds_visit_abstract [Libraries] (hidden : Option HiddenUses) (id : MethodId) :
    Upholds (Program.HasClasses kept) (visitAbstract hidden id) :=
  upholds_visiting hidden (fun q held => (q.method? id).any (isUnusedAbstract q held)) (·.deleteMethod id)
    fun c c' => c.class_ids_delete_method c' id

end Remover

namespace Inliner

theorem upholds_fold [Libraries] (owner : String) (initializer : MethodId) (store : Store) :
    Upholds (Program.HasClasses kept) (fold owner initializer store) := by
  refine upholds_bind upholds_get fun context => ?_
  split
  · exact upholds_pure ()
  · split
    · split
      · exact upholds_pure ()
      · refine upholds_bind (Work.upholds_edit _ ?_) fun _ => ?_
        · intro c c' live done
          obtain ⟨shortened, deleted, rfl⟩ := except_map _ _ _ done
          exact live.of_same (c.program.class_ids_delete_instructions initializer _ shortened deleted)
        · exact upholds_bind (upholds_modify _ fun _ live => live) fun _ => Work.upholds_record _ _
    · exact upholds_pure ()

theorem upholds_visit [Libraries] (id : ClassId) : Upholds (Program.HasClasses kept) (visit id) := by
  refine upholds_bind Work.upholds_program fun p => ?_
  split
  · exact upholds_for_m _ (upholds_fold _ _) _
  · exact upholds_pure ()

end Inliner

theorem Jumps.upholds_visit [Libraries] (id : MethodId) : Upholds (Program.HasClasses kept)
    (Jumps.visit id) := by
  refine upholds_bind upholds_get fun context => ?_
  split
  · exact upholds_pure ()
  · dsimp only
    split
    · refine upholds_bind (Work.upholds_edit _ ?_) fun _ => Work.upholds_record _ _
      intro c c' live done
      obtain ⟨edited, body, rfl⟩ := except_map _ _ _ done
      have same := Program.class_ids_edit_body _ id _ edited body
      exact live.of_same same
    · exact upholds_pure ()

theorem DeadCode.upholds_visit [Libraries] (id : MethodId) : Upholds (Program.HasClasses kept)
    (DeadCode.visit id) := by
  apply upholds_get_bind
  intro c live
  dsimp only
  split
  · exact live
  · split
    · split
      · exact live
      · rename_i shortened deleted
        have kept : (c.accept (Prod.fst <$> shortened)).program.HasClasses kept :=
          live.of_same (c.program.class_ids_delete_instructions id _ shortened deleted)
        exact Work.upholds_record _ _ _ kept
    · exact live

end Visits

-- Writing classes out leaves the program alone.
section Output

variable {holds : Program → Prop}

namespace Output

theorem upholds_encode [Libraries] (id : ClassId) : Upholds holds (encode id) := by
  refine upholds_bind Work.upholds_program fun p => ?_
  split
  · exact upholds_pure none
  · split
    · exact upholds_pure _
    · exact upholds_bind (upholds_modify _ fun _ start => start) fun _ => upholds_pure none

theorem upholds_create_directory (path : String) : Upholds holds (createDirectory path) := by
  apply upholds_get_bind
  intro c start
  dsimp only
  split
  · exact start
  · exact start

theorem upholds_write (path : String) (bytes : List UInt8) (fault : PassFault) :
    Upholds holds (write path bytes fault) := by
  apply upholds_get_bind
  intro c start
  split
  · exact start
  · exact start

theorem upholds_visit_archive [Libraries] (entries : Table String (List UInt8)) (id : ClassId) :
    Upholds holds (visitArchive entries id) := by
  refine upholds_bind (upholds_encode id) fun encoded => ?_
  cases encoded <;> exact upholds_pure _

theorem upholds_finish_archive [Libraries] (path : String) (entries : Table String (List UInt8)) :
    Upholds holds (finishArchive path entries) := by
  have recorded : Upholds holds (Work.record (some (.file path)) s!"wrote {entries.size} classes") :=
    Work.upholds_record _ _
  rw [finishArchive]
  split
  -- The directory of the archive comes first, where it has one.
  case' h_1 => refine upholds_bind (upholds_create_directory _) fun _ => ?_
  all_goals
    refine upholds_bind (upholds_write _ _ _) fun _ => ?_
    dsimp only
    split
    · exact upholds_bind (upholds_throw _) fun _ => recorded
    · exact upholds_bind (upholds_write _ _ _) fun _ => recorded

theorem upholds_visit_directory [Libraries] (directory : String) (written : Nat) (id : ClassId) :
    Upholds holds (visitDirectory directory written id) := by
  refine upholds_bind (upholds_encode id) fun encoded => ?_
  split
  · exact upholds_pure written
  · rename_i name bytes
    have counted : Upholds holds (do
        write (Path.join directory name) bytes (.notWritten (Path.join directory name))
        return written + 1 : Work Nat) :=
      upholds_bind (upholds_write _ _ _) fun _ => upholds_pure _
    dsimp only
    split
    · exact upholds_bind (upholds_create_directory _) fun _ => counted
    · exact counted

end Output

theorem Pass.upholds_finish [Libraries] (pass : Pass) : Upholds holds pass.finish := by
  cases pass with
  | jarOutput path entries =>
      exact upholds_bind (Output.upholds_finish_archive path entries) fun _ => upholds_pure _
  | classOutput directory written => exact upholds_bind (Work.upholds_record _ _) fun _ => upholds_pure _
  | _ => exact upholds_pure _

end Output

namespace Pass

-- No visit of a closure drops a class.
def DropsNoClass : Pass → Prop
  | oneOff _ _ call _ => ∀ kept count node, Upholds (Program.HasClasses kept) (call count node)
  | _ => True

section Runs

variable {kept : List ClassId} (pass : Pass) (fair : pass.DropsNoClass)

include fair

theorem ends_visit_classes [Libraries] (node : Node) (c : PassContext)
    (live : c.program.HasClasses kept) :
    Ends (pass.visit node) c (fun visited after => visited.DropsNoClass ∧ after.program.HasClasses kept)
      fun _ after => after.program.HasClasses kept := by
  have answering : ∀ {α : Type} (work : Work α) (wrap : α → Pass), Upholds (Program.HasClasses kept) work →
      (∀ a, (wrap a).DropsNoClass) → Ends (do return wrap (← work)) c
        (fun visited after => visited.DropsNoClass ∧ after.program.HasClasses kept)
        fun _ after => after.program.HasClasses kept := by
    intro α work wrap keeps fair
    exact ends_bind work _ c _ (keeps c live) fun a after live => ⟨fair a, live⟩
  unfold visit
  split
  · exact answering _ _ (Renamer.upholds_visit_class _ _) fun _ => trivial
  · exact answering _ _ (Renamer.upholds_visit_field _ _) fun _ => trivial
  · exact answering _ _ (Renamer.upholds_visit_method _ _) fun _ => trivial
  · exact answering _ _ (Remover.upholds_visit_field _ _) fun _ => trivial
  · exact answering _ _ (Remover.upholds_visit_method _ _) fun _ => trivial
  · exact answering _ _ (Remover.upholds_visit_abstract _ _) fun _ => trivial
  · exact answering _ _ (Inliner.upholds_visit _) fun _ => trivial
  · exact answering _ _ (Jumps.upholds_visit _) fun _ => trivial
  · exact answering _ _ (DeadCode.upholds_visit _) fun _ => trivial
  · exact answering _ _ (Output.upholds_visit_archive _ _) fun _ => trivial
  · exact answering _ _ (Output.upholds_visit_directory _ _ _) fun _ => trivial
  · exact answering _ _ (fair kept _ _) fun _ => fair
  · exact ⟨fair, live⟩

omit fair in
theorem drops_interrupted (fair : pass.DropsNoClass) (node : Node) (c : PassContext) :
    (pass.interrupted node c).DropsNoClass := by
  cases pass with
  | oneOff id kind call visits => exact fair
  | _ => cases node <;> trivial

theorem ends_finish_classes [Libraries] (c : PassContext) (live : c.program.HasClasses kept) :
    Ends pass.finish c (fun finished after => finished.DropsNoClass ∧ after.program.HasClasses kept)
      fun _ after => after.program.HasClasses kept := by
  cases pass with
  | jarOutput path entries =>
      exact ends_bind _ _ c _ (Output.upholds_finish_archive path entries c live) fun _ _ live => ⟨trivial, live⟩
  | classOutput directory written =>
      exact ends_bind _ _ c _ (Work.upholds_record _ _ c live) fun _ _ live => ⟨trivial, live⟩
  | _ => exact ⟨fair, live⟩

theorem ends_run_classes [Libraries] (c : PassContext) (live : c.program.HasClasses kept) :
    Ends pass.run c (fun ran after => ran.1.DropsNoClass ∧ after.program.HasClasses kept)
      fun e after => e.2.DropsNoClass ∧ after.program.HasClasses kept := by
  rw [run_eq_drive]
  apply ends_bind get _ c (fun now after => now = c ∧ after = c)
  · exact ends_of_yields _ c (yields_get c _ ⟨rfl, rfl⟩)
  · rintro _ _ ⟨rfl, rfl⟩
    refine ends_bind _ _ _ _ (ends_drive pass.metadata.id pass.metadata.kind
      (fun visited after => visited.DropsNoClass ∧ after.program.HasClasses kept)
      (fun left after => left.DropsNoClass ∧ after.program.HasClasses kept) ?_ _ rfl ?_ pass [] _
        ⟨fair, live⟩) ?_
    · intro visited c node _ kept
      exact ends_mono _ c _ _ _ _ (ends_visit_classes visited kept.1 node c kept.2) (fun _ _ ends => ends)
        fun _ _ live => ⟨drops_interrupted visited kept.1 node c, live⟩
    · exact fun node pending => absurd pending List.not_mem_nil
    · rintro ⟨visited, calls⟩ after ⟨fair, live⟩
      have finished := ends_mono _ after _ _ _ (fun _ after => visited.DropsNoClass ∧
        after.program.HasClasses kept) (ends_finish_classes visited fair after live) (fun _ _ ends => ends)
        fun _ _ live => ⟨fair, live⟩
      exact ends_bind _ _ after _ (ends_guarded _ _ _ _ after _ (fun left after => left.DropsNoClass ∧
        after.program.HasClasses kept) finished) fun _ _ kept => kept

end Runs

theorem upholds_run_empty [Libraries] (pass : Pass) (p : Program)
    (bare : p.classIds = [] ∧ p.fieldIds = [] ∧ p.methodIds = []) : Upholds (· = p) pass.run := by
  apply upholds_get_bind
  rintro c rfl
  have none : pass.metadata.kind.owners c.program = [] := by
    unfold NodeKind.owners
    split <;> simp [bare]
  dsimp only
  rw [none, List.foldlM_nil, pure_bind]
  have finished := @upholds_finish (· = c.program) _ pass c rfl
  exact ends_bind _ _ c _ (ends_guarded _ _ _ _ c _ (fun _ after => after.program = c.program) finished)
    fun _ _ kept => kept

end Pass

namespace Pipeline

section Runs

variable [Libraries] (fair : Pass → Prop) (holds : Program → Prop)
  (each : ∀ pass, fair pass → ∀ c, holds c.program →
    Ends pass.run c (fun ran after => fair ran.1 ∧ holds after.program)
      fun e after => fair e.2 ∧ holds after.program)

include each

theorem run_from_upholds (finished : List Pass) (report : PipelineReport) (p : Program) (files : FileTree)
    (warnings : List Warning) (passes : List Pass) (done : ∀ pass ∈ finished, fair pass)
    (ahead : ∀ pass ∈ passes, fair pass) (start : holds p) :
    let left := runFrom finished report p files warnings passes
    holds left.program ∧ ∀ pass ∈ left.pipeline.passes, fair pass := by
  induction passes generalizing finished report p files warnings with
  | nil => exact ⟨start, done⟩
  | cons pass rest ih =>
      have ends := each pass (ahead pass List.mem_cons_self)
        { pass := pass.metadata.id, program := p, files } start
      rw [Ends] at ends
      rw [runFrom]
      dsimp only
      rcases ran : pass.run.run.run { pass := pass.metadata.id, program := p, files } with
        ⟨⟨failure, left⟩ | ⟨after, nodes⟩, c⟩
      · rw [ran] at ends
        refine ⟨ends.2, fun one listed => ?_⟩
        rcases List.mem_append.mp listed with before | behind
        · exact done one before
        · rcases List.mem_cons.mp behind with rfl | behind
          · exact ends.1
          · exact ahead one (List.mem_cons_of_mem pass behind)
      · rw [ran] at ends
        refine ih _ _ _ _ _ ?_ (fun one listed => ahead one (List.mem_cons_of_mem pass listed)) ends.2
        intro one listed
        rcases List.mem_append.mp listed with before | last
        · exact done one before
        · rw [List.mem_singleton.mp last]
          exact ends.1

theorem run_upholds (pipeline : Pipeline) (p : Program) (files : FileTree)
    (ahead : ∀ pass ∈ pipeline.passes, fair pass) (start : holds p) :
    holds (pipeline.run p files).program ∧ ∀ pass ∈ (pipeline.run p files).pipeline.passes, fair pass :=
  have none : ∀ pass ∈ ([] : List Pass), fair pass := fun _ listed => absurd listed List.not_mem_nil
  run_from_upholds fair holds each [] {} p files [] pipeline.passes none ahead start

end Runs

theorem run_classes [Libraries] (pipeline : Pipeline) (p : Program) (files : FileTree)
    (fair : ∀ pass ∈ pipeline.passes, pass.DropsNoClass) :
    p.classIds ⊆ (pipeline.run p files).program.classIds ∧
      ∀ pass ∈ (pipeline.run p files).pipeline.passes, pass.DropsNoClass :=
  run_upholds Pass.DropsNoClass (Program.HasClasses p.classIds)
    (fun pass drops c live => Pass.ends_run_classes pass drops c live) pipeline p files fair
    fun _ live => live

theorem run_empty [Libraries] (pipeline : Pipeline) (p : Program) (files : FileTree)
    (bare : p.classIds = [] ∧ p.fieldIds = [] ∧ p.methodIds = []) : (pipeline.run p files).program = p := by
  refine (run_upholds (fun _ => True) (· = p) ?_ pipeline p files (fun _ _ => trivial) rfl).1
  intro pass _ c same
  refine ends_mono _ c _ _ _ _ (Pass.upholds_run_empty pass p bare c same) ?_ ?_
  · exact fun _ _ same => ⟨trivial, same⟩
  · exact fun _ _ same => ⟨trivial, same⟩

end Pipeline

end JvmEdit
