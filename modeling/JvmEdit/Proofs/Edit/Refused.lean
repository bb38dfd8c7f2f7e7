import JvmEdit.Libraries.Standard
import JvmEdit.Proofs.Edit.Atomic
import JvmEdit.Proofs.Program.Session
set_option autoImplicit false

namespace JvmEdit

-- Work that leaves the state alone when it ends in an error.
def InPlace.Atomic {σ α : Type} (x : InPlace σ α) : Prop :=
  ∀ s refusal, (x.perform s).1 = .error refusal → (x.perform s).2 = s

theorem InPlace.atomic_of_settle {σ α : Type} (x : InPlace σ α) (f : σ → Except EditError (α × σ))
    (whole : ∀ s, x.perform s = settle s (f s)) : x.Atomic := by
  intro s refusal refused
  rw [whole s] at refused ⊢
  cases result : f s with
  | error e => rfl
  | ok a =>
      rw [result] at refused
      cases refused

theorem Editing.map_quiet (r : Except EditError Program) (s : Logged Program) :
    (r.map fun q => ((), { s with value := q })) =
      (r.map (pure : Program → Logged Program)).map fun q =>
        ((), ⟨q.value, s.warnings ++ q.warnings⟩) := by
  cases r with
  | error refusal => rfl
  | ok q =>
      exact congrArg (fun warnings => Except.ok ((), Logged.mk q warnings))
        (List.append_nil s.warnings).symm

theorem MemberEdit.perform_in_place [Libraries] (e : MemberEdit) (s : Logged Program) :
    e.inPlace.perform s = InPlace.settle s ((s.value.memberOutcome e).map fun q =>
      ((), ⟨q.value, s.warnings ++ q.warnings⟩)) := by
  cases e with
  | renameField id new =>
      exact (Editing.perform_rename_field id new s).trans (congrArg _ (Editing.map_quiet _ s))
  | renameMethod id new =>
      exact (Editing.perform_rename_method id new s).trans (congrArg _ (Editing.map_quiet _ s))
  | moveField id destination =>
      exact (Editing.perform_move_field id destination s).trans (congrArg _ (Editing.map_quiet _ s))
  | moveMethod id destination =>
      exact (Editing.perform_move_method id destination s).trans (congrArg _ (Editing.map_quiet _ s))
  | deleteField id => exact Editing.perform_delete_field id s
  | deleteMethod id => exact Editing.perform_delete_method id s
  | deleteInstructions id insns =>
      rw [MemberEdit.inPlace, InPlace.perform_bind, Editing.perform_delete_instructions]
      rw [Program.memberOutcome]
      cases s.value.deleteInstructions id insns <;> rfl

theorem Edit.perform_in_place [Libraries] (e : Edit) (s : Logged Program) :
    e.inPlace.perform s = InPlace.settle s ((s.value.outcome e).map fun q =>
      ((), ⟨q.value, s.warnings ++ q.warnings⟩)) := by
  cases e with
  | renameClass id new =>
      exact (Editing.perform_rename_class id new s).trans (congrArg _ (Editing.map_quiet _ s))
  | member e => exact e.perform_in_place s
  | body id f => exact Editing.perform_edit_body id f s

theorem Passing.perform_context {α : Type} (f : PassContext → Passing α) (c : PassContext) :
    (get >>= f : Passing α).perform c = (f c).perform c := rfl

theorem Passing.perform_within [Libraries] (e : Edit) (c : PassContext) :
    (Passing.within e.inPlace).perform c =
    InPlace.settle c ((c.program.outcome e).map fun q => ((), c.accept q)) := by
  have whole := e.perform_in_place { value := c.program }
  rw [within, perform_context]
  dsimp only
  rw [whole]
  cases c.program.outcome e <;> rfl

theorem PassContext.outcome_eq [Libraries] (c : PassContext) (e : PassEdit) : c.outcome e =
    match c.note e with
    | .error refusal => .error refusal
    | .ok note => (c.program.outcome e.edit).map fun q =>
        (note.mark (c.accept q)).record note.target note.message := by
  cases e with
  | renameClass id new =>
      rw [PassContext.outcome, PassContext.note, PassContext.renameClass]
      cases c.program.className? id with
      | none => rfl
      | some old =>
          rw [PassEdit.edit, Program.outcome]
          cases c.program.renameClass id new <;> rfl
  | renameField id new =>
      rw [PassContext.outcome, PassContext.note, PassContext.renameField]
      cases c.fieldTarget? id with
      | none => rfl
      | some target =>
          cases target with
          | field owner name =>
              rw [PassEdit.edit, Program.outcome, Program.memberOutcome]
              cases c.program.renameField id new <;> rfl
          | _ => rfl
  | renameMethod id new =>
      rw [PassContext.outcome, PassContext.note, PassContext.renameMethod]
      cases c.methodTarget? id with
      | none => rfl
      | some target =>
          cases target with
          | method owner name descriptor =>
              rw [PassEdit.edit, Program.outcome, Program.memberOutcome]
              cases c.program.renameMethod id new <;> rfl
          | _ => rfl
  | deleteField id =>
      rw [PassContext.outcome, PassContext.note, PassContext.deleteField]
      cases c.fieldTarget? id with
      | none => rfl
      | some target =>
          rw [PassEdit.edit, Program.outcome, Program.memberOutcome]
          cases c.program.deleteField id <;> rfl
  | deleteMethod id =>
      rw [PassContext.outcome, PassContext.note, PassContext.deleteMethod]
      cases c.methodTarget? id with
      | none => rfl
      | some target =>
          rw [PassEdit.edit, Program.outcome, Program.memberOutcome]
          cases c.program.deleteMethod id <;> rfl
  | moveField id destination =>
      rw [PassContext.outcome, PassContext.note, PassContext.moveField]
      cases c.fieldTarget? id with
      | none => rfl
      | some target =>
          cases c.program.className? destination with
          | none => cases target <;> rfl
          | some name =>
              cases target with
              | field owner name =>
                  rw [PassEdit.edit, Program.outcome, Program.memberOutcome]
                  cases c.program.moveField id destination <;> rfl
              | _ => rfl
  | moveMethod id destination =>
      rw [PassContext.outcome, PassContext.note, PassContext.moveMethod]
      cases c.methodTarget? id with
      | none => rfl
      | some target =>
          cases c.program.className? destination with
          | none => cases target <;> rfl
          | some name =>
              cases target with
              | method owner name descriptor =>
                  rw [PassEdit.edit, Program.outcome, Program.memberOutcome]
                  cases c.program.moveMethod id destination <;> rfl
              | _ => rfl

theorem PassEdit.perform_in_place [Libraries] (e : PassEdit) (c : PassContext) :
    e.inPlace.perform c = InPlace.settle c ((c.outcome e).map fun d => ((), d)) := by
  rw [PassEdit.inPlace, Passing.perform_context, PassContext.outcome_eq]
  cases c.note e with
  | error refusal => rfl
  | ok note =>
      dsimp only
      rw [InPlace.perform_bind, Passing.perform_within]
      cases c.program.outcome e.edit <;> rfl

theorem PassEdit.perform_refused [Libraries] (e : PassEdit) (c : PassContext) (refusal : EditError)
    (refused : (e.edit.inPlace.perform { value := c.program }).1 = .error refusal) :
    ∃ other, e.inPlace.perform c = (.error other, c) := by
  rw [Edit.perform_in_place] at refused
  rw [perform_in_place, PassContext.outcome_eq]
  cases c.note e with
  | error other => exact ⟨other, rfl⟩
  | ok note =>
      cases result : c.program.outcome e.edit with
      | error other => exact ⟨other, rfl⟩
      | ok q =>
          rw [result] at refused
          cases refused

-- On every program, whatever has become of it and whether or not the arguments name anything in it,
-- a refused edit leaves all as it was, and so does a pass that makes it: neither a change is noted
-- nor an entity marked. Taking steps one by one differs in nothing from the edit as a whole. Once a
-- move is admitted, none of the errors that could still end it occurs.
theorem refused_leaves_all [Libraries] :
    (∀ (e : Edit) (s : Logged Program), e.inPlace.perform s =
      InPlace.settle s ((s.value.outcome e).map fun q => ((), ⟨q.value, s.warnings ++ q.warnings⟩))) ∧
    (∀ (e : PassEdit) (c : PassContext),
      e.inPlace.perform c = InPlace.settle c ((c.outcome e).map fun d => ((), d))) ∧
    (∀ e : Edit, e.inPlace.Atomic) ∧ (∀ e : PassEdit, e.inPlace.Atomic) ∧
    (∀ (e : PassEdit) (c : PassContext) (refusal : EditError),
      (e.edit.inPlace.perform { value := c.program }).1 = .error refusal →
        ∃ other, e.inPlace.perform c = (.error other, c)) ∧
    (∀ (id : FieldId) (destination : ClassId) (s t : Logged Program) (f : Field) (name : String),
      (Editing.admitField id destination).perform s = (.ok (f, name), t) →
        ((Editing.transferField id destination f name).perform t).1 = .ok ()) ∧
    ∀ (id : MethodId) (destination : ClassId) (s t : Logged Program) (m : Method) (target : Class),
      (Editing.admitMethod id destination).perform s = (.ok (m, target), t) →
        ((Editing.transferMethod id destination m target).perform t).1 = .ok () := by
  refine ⟨Edit.perform_in_place, PassEdit.perform_in_place, ?_, ?_, PassEdit.perform_refused, ?_, ?_⟩
  · intro e
    exact InPlace.atomic_of_settle e.inPlace _ e.perform_in_place
  · intro e
    exact InPlace.atomic_of_settle e.inPlace _ e.perform_in_place
  · intro id destination s t f name admitted
    obtain ⟨rfl, found, target, free⟩ := Editing.admit_field_ok id destination s t f name admitted
    rw [Editing.perform_transfer_field id destination t f name found target free]
  · intro id destination s t m target admitted
    obtain ⟨rfl, found, there, free⟩ := Editing.admit_method_ok id destination s t m target admitted
    rw [Editing.perform_transfer_method id destination t m target found there free]

-- Two classes with a field `n` each; `A` also has a field `k` and a method.
def Session.rivals : Program :=
  let header (name : String) : ClassEvent := .header ⟨name, none, [], none, default, 52, [], []⟩
  let field (name : String) : ClassEvent := .field ⟨name, "I", none, default, none, []⟩
  ((start {}).run [.openBuilder, .visit 0 (header "A"), .visit 0 (field "n"), .visit 0 (field "k"),
    .visit 0 (.method ⟨"run", "()V", none, default, [], []⟩), .visit 0 .classEnd,
    .visit 0 (header "B"), .visit 0 (field "n"), .visit 0 .classEnd]).program

-- `A.n` may not go to `B`, `A.k` and the method may.
theorem refused_leaves_all_rivals :
    let s : Logged Program := { value := Session.rivals }
    let c : PassContext := { pass := "mover", program := Session.rivals }
    let refused := (Editing.moveField ⟨2⟩ ⟨5⟩).perform s
    (refused.1 = .error (.nameTaken "B.n") ∧ refused.2 = s) ∧
      (∃ refusal, (PassEdit.moveField ⟨2⟩ ⟨5⟩).inPlace.perform c = (.error refusal, c)) ∧
      (∃ admitted, (Editing.admitField ⟨3⟩ ⟨5⟩).perform s = (.ok admitted, s) ∧
        ((Editing.transferField ⟨3⟩ ⟨5⟩ admitted.1 admitted.2).perform s).1 = .ok ()) ∧
      ∃ admitted, (Editing.admitMethod ⟨4⟩ ⟨5⟩).perform s = (.ok admitted, s) ∧
        ((Editing.transferMethod ⟨4⟩ ⟨5⟩ admitted.1 admitted.2).perform s).1 = .ok () := by
  intro s c refused
  obtain ⟨_, _, atomic, _, noted, field, method⟩ := refused_leaves_all
  have taken : refused.1 = .error (.nameTaken "B.n") := by rfl
  refine ⟨⟨taken, atomic (.member (.moveField ⟨2⟩ ⟨5⟩)) s _ taken⟩,
    noted (.moveField ⟨2⟩ ⟨5⟩) c _ taken, ⟨_, rfl, ?_⟩, ⟨_, rfl, ?_⟩⟩
  · exact field ⟨3⟩ ⟨5⟩ s s _ _ rfl
  · exact method ⟨4⟩ ⟨5⟩ s s _ _ rfl

end JvmEdit
