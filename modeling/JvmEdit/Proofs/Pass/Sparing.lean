import JvmEdit.Pass.Remover
import JvmEdit.Proofs.Data.Table
import JvmEdit.Proofs.Pass.Removers
import JvmEdit.Proofs.Pass.Traversal
set_option autoImplicit false

namespace JvmEdit

-- What goes by a name and a descriptor without being bound.
inductive HiddenUse
  | field (name descriptor : String)
  | method (name descriptor : String)
  deriving DecidableEq, Repr

-- A handle reads or writes a field, or calls a method.
def Constant.hiddenUse? : Constant → Option HiddenUse
  | .methodHandle kind _ name descriptor _ =>
      some (if kind ≤ HiddenUses.lastFieldKind then .field name descriptor else .method name descriptor)
  | _ => none

-- Of the instructions that name a member, those that lead to nothing loaded.
def Operand.hiddenUse? (p : Program) (context : ClassId) (operand : Operand) : Option HiddenUse :=
  match operand with
  | .constant value => value.hiddenUse?
  | .field use => if (p.lookup? (some context) operand).isSome then none else some (.field use.name use.descriptor)
  | .call c =>
      if (p.lookup? (some context) operand).isSome then none else some (.method c.name c.descriptor)
  | _ => none

-- Code or a bootstrap method of the program has the use.
inductive Program.Hides (p : Program) (u : HiddenUse) : Prop
  | code (id : MethodId) (m : Method) (i : Instruction) (live : p.method? id = some m)
      (member : i ∈ m.code.toList) (names : i.operand.hiddenUse? p m.owner = some u)
  | bootstrap (id : ClassId) (c : Class) (b : BootstrapMethod) (value : Constant)
      (live : p.class? id = some c) (member : b ∈ c.bootstrapMethods)
      (part : value ∈ b.handle :: b.arguments) (names : value.hiddenUse? = some u)

namespace HiddenUses

def Has (h : HiddenUses) : HiddenUse → Prop
  | .field name descriptor => (name, descriptor) ∈ h.fields
  | .method name descriptor => (name, descriptor) ∈ h.methods

variable (u : HiddenUse)

-- A step of the collection that adds the use for some of what it looks at.
def Adds {α : Type} (f : HiddenUses → α → HiddenUses) (adds : α → Prop) : Prop :=
  ∀ h x, (f h x).Has u ↔ h.Has u ∨ adds x

theorem adds_foldl {α : Type} (f : HiddenUses → α → HiddenUses) (adds : α → Prop) (one : Adds u f adds) :
    Adds u (fun h (xs : List α) => xs.foldl f h) fun xs => ∃ x ∈ xs, adds x := by
  intro h xs
  induction xs generalizing h with
  | nil => simp
  | cons x xs ih =>
      refine (ih (f h x)).trans ?_
      rw [one h x, or_assoc]
      exact or_congr_right (by simp only [List.mem_cons, exists_eq_or_imp])

theorem adds_add_handle : Adds u addHandle fun value => value.hiddenUse? = some u := by
  intro h value
  cases value with
  | methodHandle kind owner name descriptor isInterface =>
      simp only [addHandle, Constant.hiddenUse?]
      split <;> cases u <;> simp [Has, or_comm, eq_comm]
  | _ => simp [addHandle, Constant.hiddenUse?]

theorem adds_add_operand (p : Program) (context : ClassId) :
    Adds u (addOperand p context) fun operand => operand.hiddenUse? p context = some u := by
  intro h operand
  cases operand with
  | constant value => exact adds_add_handle u h value
  | field use =>
      simp only [addOperand, Operand.hiddenUse?]
      split <;> cases u <;> simp [Has, or_comm, eq_comm]
  | call call =>
      simp only [addOperand, Operand.hiddenUse?]
      split <;> cases u <;> simp [Has, or_comm, eq_comm]
  | _ => simp [addOperand, Operand.hiddenUse?]

theorem adds_add_method (p : Program) : Adds u (addMethod p) fun m =>
    ∃ i ∈ m.code.toList, i.operand.hiddenUse? p m.owner = some u := fun h m =>
  adds_foldl u (fun h (i : Instruction) => h.addOperand p m.owner i.operand) _
    (fun h i => adds_add_operand u p m.owner h i.operand) h m.code.toList

theorem adds_add_bootstrap : Adds u addBootstrap fun b =>
    ∃ value ∈ b.handle :: b.arguments, value.hiddenUse? = some u := fun h b =>
  adds_foldl u addHandle _ (adds_add_handle u) h (b.handle :: b.arguments)

theorem adds_add_class : Adds u addClass fun c =>
    ∃ b ∈ c.bootstrapMethods, ∃ value ∈ b.handle :: b.arguments, value.hiddenUse? = some u := fun h c =>
  adds_foldl u addBootstrap _ (adds_add_bootstrap u) h c.bootstrapMethods

theorem has_of_program (p : Program) (hides : p.Hides u) : (ofProgram p).Has u := by
  apply (adds_foldl u addClass _ (adds_add_class u) _ p.classes.values).mpr
  cases hides with
  | code id m i live member names =>
      have row : m ∈ p.methods.values :=
        List.mem_map.mpr ⟨(id, m), Table.mem_of_find p.methods.toList id m live, rfl⟩
      exact .inl ((adds_foldl u (addMethod p) _ (adds_add_method u p) _ p.methods.values).mpr
        (.inr ⟨m, row, i, member, names⟩))
  | bootstrap id c b value live member part names =>
      have row : c ∈ p.classes.values :=
        List.mem_map.mpr ⟨(id, c), Table.mem_of_find p.classes.toList id c live, rfl⟩
      exact .inr ⟨c, row, b, member, value, part, names⟩

end HiddenUses

section Ends

variable {ε σ α β : Type}

-- Of work that ends well the promise holds, and of what it leaves when it fails the other one.
def Ends (work : ExceptT ε (StateM σ) α) (s : σ) (promise : α → σ → Prop) (failed : ε → σ → Prop) : Prop :=
  match work.run.run s with
  | (.ok a, s') => promise a s'
  | (.error e, s') => failed e s'

variable {promise : β → σ → Prop} {failed : ε → σ → Prop}

theorem ends_bind (work : ExceptT ε (StateM σ) α) (next : α → ExceptT ε (StateM σ) β) (s : σ)
    (between : α → σ → Prop) (first : Ends work s between failed)
    (later : ∀ a s', between a s' → Ends (next a) s' promise failed) :
    Ends (work >>= next) s promise failed := by
  rw [Ends] at first ⊢
  rw [ExceptT.run_bind, StateT.run_bind]
  rcases ran : work.run.run s with ⟨e | a, s'⟩
  · rw [ran] at first
    exact first
  · rw [ran] at first
    exact later a s' first

theorem ends_of_yields (work : ExceptT ε (StateM σ) β) (s : σ) (yields : Yields work s promise) :
    Ends work s promise failed := by
  obtain ⟨a, s', ran, kept⟩ := yields
  rw [Ends, ran]
  exact kept

theorem ends_mono (work : ExceptT ε (StateM σ) α) (s : σ) (promise weaker : α → σ → Prop)
    (failed fails : ε → σ → Prop) (ends : Ends work s promise failed)
    (implies : ∀ a s', promise a s' → weaker a s') (impliesFailed : ∀ e s', failed e s' → fails e s') :
    Ends work s weaker fails := by
  rw [Ends] at ends ⊢
  split at ends
  · exact implies _ _ ends
  · exact impliesFailed _ _ ends

end Ends

theorem Work.ends_edit (f : PassContext → Except EditError PassContext) (c : PassContext)
    (promise : Unit → PassContext → Prop) (failed : PassFault → PassContext → Prop)
    (done : ∀ c', f c = .ok c' → promise () c') (refused : ∀ e, failed e c) :
    Ends (Work.edit f) c promise failed := by
  apply ends_bind get _ c (fun now after => now = c ∧ after = c)
  · exact ends_of_yields _ c (yields_get c _ ⟨rfl, rfl⟩)
  · rintro _ _ ⟨rfl, rfl⟩
    cases edited : f _ with
    | ok c' => exact done c' edited
    | error e => exact refused _

namespace Pass

theorem ends_guarded {α : Type} (id : String) (node : Option Node) (left : PassContext → Pass)
    (work : Work α) (c : PassContext) (promise : α → PassContext → Prop)
    (failed : Pass → PassContext → Prop) (ends : Ends work c promise fun _ after => failed (left c) after) :
    Ends (guarded id node left work) c promise fun e after => failed e.2 after := by
  rw [Ends] at ends ⊢
  rw [run_guarded]
  rcases ran : work.run.run c with ⟨e | a, c'⟩
  · rw [ran] at ends
    exact ends
  · rw [ran] at ends
    exact ends

theorem ends_drive [Libraries] (id : String) (kind : NodeKind) (invariant : Pass → PassContext → Prop)
    (failed : Pass → PassContext → Prop) (visits : ∀ pass c node, node.kind = kind → invariant pass c →
      Ends (pass.visit node) c invariant fun _ after => failed (pass.interrupted node c) after)
    (nodes : Nodes) (same : nodes.kind = kind) (pure : ∀ node ∈ nodes.pending, node.kind = nodes.kind)
    (pass : Pass) (calls : List (Program × Node)) (c : PassContext) (start : invariant pass c) :
    Ends (drive id pass calls nodes) c (fun state after => invariant state.1 after)
      fun e after => failed e.2 after := by
  induction nodes using Nodes.calling generalizing pass calls c with
  | step nodes ih =>
      rw [Ends]
      cases answered : nodes.next? c.program with
      | none =>
          rw [run_drive_done id pass calls nodes c answered]
          exact start
      | some call =>
          obtain ⟨node, later⟩ := call
          obtain ⟨isKind, goesOn, laterPure⟩ := Nodes.kind_next? c.program nodes node later pure answered
          rw [run_drive_next id pass calls nodes later c node answered]
          apply ends_bind _ _ c invariant
          · exact ends_guarded id _ _ _ c invariant failed (visits pass c node (isKind.trans same) start)
          · intro pass' c' reached
            exact ih c.program node later answered (goesOn.trans same) (goesOn ▸ laterPure) pass' _ c' reached

end Pass

namespace Program

-- The hidden use that keeps a field or method.
def memberUse? (p : Program) : Target → Option HiddenUse
  | .field id => (p.field? id).map fun f => .field f.name f.descriptor
  | .method id => (p.method? id).map fun m => .method m.name m.descriptor
  | .class _ => none

-- The members with one of these uses are still there, under the same names.
def Spares (p : Program) (uses : HiddenUses) (q : Program) : Prop :=
  ∀ member u, p.memberUse? member = some u → uses.Has u → q.memberUse? member = some u

theorem Spares.refl (p : Program) (uses : HiddenUses) : p.Spares uses p := fun _ _ named _ => named

theorem Spares.trans {p q r : Program} {uses : HiddenUses} (first : p.Spares uses q)
    (second : q.Spares uses r) : p.Spares uses r :=
  fun member u named has => second member u (first member u named has) has

theorem Spares.of_gone {p q : Program} {uses : HiddenUses} (gone : Target) (u : HiddenUse)
    (named : p.memberUse? gone = some u) (unused : ¬uses.Has u)
    (rows : ∀ member, q.memberUse? member = if member = gone then none else p.memberUse? member) :
    p.Spares uses q := by
  intro member v isNamed has
  rw [rows, if_neg]
  · exact isNamed
  · rintro rfl
    cases named.symm.trans isNamed
    exact unused has

variable (p : Program)

theorem field?_of_bare (q : Program) (same : q.bare = p.bare) (id : FieldId) :
    (q.field? id).map Field.bare = (p.field? id).map Field.bare := by
  have rows : q.fields.mapValues Field.bare = p.fields.mapValues Field.bare := congrArg Program.fields same
  rw [field?, field?, ← Table.get?_map_values, rows, Table.get?_map_values]

theorem member_use?_of_bare (q : Program) (same : q.bare = p.bare) (member : Target) :
    q.memberUse? member = p.memberUse? member := by
  cases member with
  | «class» id => rfl
  | field id =>
      have row := congrArg (Option.map fun f : Field => HiddenUse.field f.name f.descriptor)
        (field?_of_bare p q same id)
      rwa [Option.map_map, Option.map_map] at row
  | method id =>
      have row := congrArg (Option.map fun m : Method => HiddenUse.method m.name m.descriptor)
        (method?_of_bare p q same id)
      rwa [Option.map_map, Option.map_map] at row

theorem member_use?_delete_field [Libraries] (id : FieldId) (f : Field) (owner : String)
    (q : Logged Program) (live : p.field? id = some f) (loaded : p.className? f.owner = some owner)
    (unread : f.references.isEmpty = true) (done : p.deleteField id = .ok q) (member : Target) :
    q.value.memberUse? member = if member = .field id then none else p.memberUse? member := by
  have none : f.references.toList = [] := by
    rw [OrderedSet.toList, List.isEmpty_iff.mp unread]
    rfl
  rw [delete_field_eq p id f owner live loaded, none] at done
  cases done
  cases member with
  | «class» other => rfl
  | method other => rfl
  | field other =>
      have row : (p.detachField id f.owner (Key.field owner f.name)).field? other =
          if id = other then .none else p.field? other := Table.get?_erase p.fields id other
      refine (congrArg (Option.map fun f : Field => HiddenUse.field f.name f.descriptor) row).trans ?_
      rw [apply_ite (Option.map _)]
      exact if_congr (by simp only [Target.field.injEq, eq_comm]) rfl rfl

theorem member_use?_without_method (id : MethodId) (m : Method) (owner : String) (member : Target) :
    (p.withoutMethod id m owner).memberUse? member =
      if member = .method id then none else p.memberUse? member := by
  have kept := member_use?_of_bare p _ (bare_forget_references p id m.owner) member
  cases member with
  | «class» other => rfl
  | field other => exact kept
  | method other =>
      have row := method?_detach_method (p.forgetReferences id m.owner) id m.owner
        (Key.method owner m.name m.descriptor) other
      refine (congrArg (Option.map fun m : Method => HiddenUse.method m.name m.descriptor) row).trans ?_
      rw [apply_ite (Option.map _), ← kept]
      exact if_congr (by simp only [Target.method.injEq, eq_comm]) rfl rfl

end Program

namespace PassContext

variable (c c' : PassContext) (uses : HiddenUses)

theorem spares_delete_field [Libraries] (id : FieldId) (f : Field) (live : c.program.field? id = some f)
    (unused : Remover.isUnusedField uses f = true) (done : c.deleteField id = .ok c') :
    c.program.Spares uses c'.program := by
  simp only [Remover.isUnusedField, Bool.and_eq_true, Bool.not_eq_true'] at unused
  rw [deleteField, fieldTarget?, live, Option.bind_some] at done
  cases loaded : c.program.className? f.owner with
  | none =>
      rw [loaded] at done
      cases done
  | some owner =>
      rw [loaded] at done
      dsimp only [Option.map_some] at done
      cases deleted : c.program.deleteField id with
      | error e =>
          rw [deleted] at done
          cases done
      | ok q =>
          rw [deleted] at done
          cases done
          refine .of_gone (.field id) (.field f.name f.descriptor) (by rw [Program.memberUse?, live]; rfl) ?_ ?_
          · rw [HiddenUses.Has, ← List.contains_iff_mem]
            exact Bool.eq_false_iff.mp unused.2
          · exact Program.member_use?_delete_field c.program id f owner q live loaded unused.1.1.1 deleted

theorem spares_delete_method [Libraries] (id : MethodId) (m : Method)
    (live : c.program.method? id = some m)
    (uncalled : m.invocations.isEmpty = true) (unnamed : uses.hasMethod m = false)
    (done : c.deleteMethod id = .ok c') : c.program.Spares uses c'.program := by
  rw [deleteMethod, methodTarget?, live, Option.bind_some] at done
  cases loaded : c.program.className? m.owner with
  | none =>
      rw [loaded] at done
      cases done
  | some owner =>
      rw [loaded] at done
      dsimp only [Option.map_some] at done
      rw [Program.delete_method_uncalled c.program id m owner live loaded uncalled] at done
      cases done
      refine .of_gone (.method id) (.method m.name m.descriptor) (by rw [Program.memberUse?, live]; rfl) ?_ ?_
      · rw [HiddenUses.Has, ← List.contains_iff_mem]
        exact Bool.eq_false_iff.mp unnamed
      · exact Program.member_use?_without_method c.program id m owner

end PassContext

namespace Remover

variable (hidden : Option HiddenUses) (c : PassContext)

theorem yields_uses : Yields (settle hidden) c fun found c' => found = uses hidden c.program ∧ c' = c := by
  cases hidden with
  | some held => exact yields_pure held c _ ⟨rfl, rfl⟩
  | none =>
      apply yields_bind _ _ c fun q c' => q = c.program ∧ c' = c
      · exact Work.yields_program _ ⟨rfl, rfl⟩
      · rintro _ _ ⟨rfl, rfl⟩
        exact yields_pure _ _ _ ⟨rfl, rfl⟩

theorem ends_visit (wrap : Option HiddenUses → Pass) (goes : Program → HiddenUses → Bool)
    (remove : PassContext → Except EditError PassContext)
    (spares : ∀ held c', goes c.program held = true → remove c = .ok c' → c.program.Spares held c'.program) :
    Ends (do
      let kept ← (do
        let held ← settle hidden
        let q ← Work.program
        if goes q held then Work.edit remove
        return some held : Work (Option HiddenUses))
      return wrap kept) c
      (fun pass c' => pass = wrap (some (uses hidden c.program)) ∧
        c.program.Spares (uses hidden c.program) c'.program)
      (fun _ c' => c' = c) := by
  refine ends_bind _ _ c (fun kept c' => kept = some (uses hidden c.program) ∧
    c.program.Spares (uses hidden c.program) c'.program) ?_ ?_
  · apply ends_bind _ _ c _ (ends_of_yields _ c (yields_uses hidden c))
    rintro _ c' ⟨rfl, same⟩
    subst same
    apply ends_bind _ _ c' (fun q c => q = c'.program ∧ c = c')
    · exact ends_of_yields _ c' (Work.yields_program _ ⟨rfl, rfl⟩)
    · rintro _ _ ⟨rfl, same⟩
      subst same
      split
      · rename_i gone
        refine ends_bind _ _ _ _ (Work.ends_edit remove _ (fun _ after =>
          Program.Spares _ (uses hidden _) after.program) _ (fun after done => spares _ after gone done) fun _ => rfl) ?_
        intro _ after kept
        exact ends_of_yields _ after (yields_pure _ after _ ⟨rfl, kept⟩)
      · exact ends_of_yields _ _ (yields_pure _ _ _ ⟨rfl, .refl _ _⟩)
  · rintro _ c' ⟨rfl, kept⟩
    exact ends_of_yields _ c' (yields_pure _ c' _ ⟨rfl, kept⟩)

end Remover

namespace Pass

def isRemover : Pass → Bool
  | .unusedFieldRemover _ | .unusedMethodRemover _ | .abstractMethodRemover _ => true
  | _ => false

-- The hidden uses that a remover holds.
def held : Pass → Option HiddenUses
  | .unusedFieldRemover hidden | .unusedMethodRemover hidden | .abstractMethodRemover hidden => hidden
  | _ => none

def holding (hidden : Option HiddenUses) : Pass → Pass
  | .unusedFieldRemover _ => .unusedFieldRemover hidden
  | .unusedMethodRemover _ => .unusedMethodRemover hidden
  | .abstractMethodRemover _ => .abstractMethodRemover hidden
  | pass => pass

theorem metadata_holding (pass : Pass) (hidden : Option HiddenUses) :
    (pass.holding hidden).metadata = pass.metadata := by
  cases pass <;> rfl

theorem holding_holding (pass : Pass) (hidden other : Option HiddenUses) :
    (pass.holding hidden).holding other = pass.holding other := by
  cases pass <;> rfl

-- A run has something to visit.
def finds (pass : Pass) (p : Program) : Bool := ((Nodes.start p pass.metadata.kind).next? p).isSome

-- What a run makes of a remover: one that holds no hidden uses gathers those of the program, if there is
-- anything to visit, and holds them from then on.
def settled (pass : Pass) (p : Program) : Pass :=
  if pass.finds p then pass.holding (some (Remover.uses pass.held p)) else pass

variable (pass : Pass) (remover : pass.isRemover = true) (c : PassContext)

include remover

theorem ends_visit_remover [Libraries] (node : Node) (kind : node.kind = pass.metadata.kind) :
    Ends (pass.visit node) c
      (fun pass' c' => pass' = pass.holding (some (Remover.uses pass.held c.program)) ∧
        c.program.Spares (Remover.uses pass.held c.program) c'.program)
      (fun _ c' => c' = c) := by
  cases pass with
  | unusedFieldRemover hidden =>
      cases node with
      | field id =>
          apply Remover.ends_visit hidden c .unusedFieldRemover
            (fun q held => (q.field? id).any (Remover.isUnusedField held)) (·.deleteField id)
          intro held c' goes done
          obtain ⟨f, live, unused⟩ := (Option.any_eq_true _ _).mp goes
          exact PassContext.spares_delete_field c c' held id f live unused done
      | _ => cases kind
  | unusedMethodRemover hidden =>
      cases node with
      | method id =>
          apply Remover.ends_visit hidden c .unusedMethodRemover
            (fun q held => (q.method? id).any (Remover.isUnusedMethod held) && !q.isEntryPoint id &&
              !q.inOverrideFamily id) (·.deleteMethod id)
          intro held c' goes done
          simp only [Bool.and_eq_true] at goes
          obtain ⟨m, live, unused⟩ := (Option.any_eq_true _ _).mp goes.1.1
          simp only [Remover.isUnusedMethod, Bool.and_eq_true, Bool.not_eq_true'] at unused
          exact PassContext.spares_delete_method c c' held id m live unused.1.1.1 unused.2 done
      | _ => cases kind
  | abstractMethodRemover hidden =>
      cases node with
      | method id =>
          apply Remover.ends_visit hidden c .abstractMethodRemover
            (fun q held => (q.method? id).any (Remover.isUnusedAbstract q held)) (·.deleteMethod id)
          intro held c' goes done
          obtain ⟨m, live, unused⟩ := (Option.any_eq_true _ _).mp goes
          simp only [Remover.isUnusedAbstract, Bool.and_eq_true, Bool.not_eq_true'] at unused
          exact PassContext.spares_delete_method c c' held id m live unused.1.1.2 unused.1.2 done
      | _ => cases kind
  | _ => cases remover

theorem interrupted_remover (node : Node) (kind : node.kind = pass.metadata.kind) :
    pass.interrupted node c = pass.holding (some (Remover.uses pass.held c.program)) := by
  cases pass with
  | unusedFieldRemover hidden => cases node <;> first | rfl | cases kind
  | unusedMethodRemover hidden => cases node <;> first | rfl | cases kind
  | abstractMethodRemover hidden => cases node <;> first | rfl | cases kind
  | _ => cases remover

theorem is_remover_holding (hidden : Option HiddenUses) : (pass.holding hidden).isRemover = true := by
  cases pass <;> first | rfl | exact remover

theorem held_holding (hidden : Option HiddenUses) : (pass.holding hidden).held = hidden := by
  cases pass <;> first | rfl | cases remover

theorem holding_of_held (hidden : Option HiddenUses) (held : pass.held = hidden) :
    pass.holding hidden = pass := by
  subst held
  cases pass <;> rfl

theorem finish_remover [Libraries] : pass.finish = pure pass := by
  cases pass <;> first | rfl | cases remover

theorem ends_drive_remover [Libraries] (id : String) (uses : HiddenUses)
    (held : pass.held = some uses) (p : Program)
    (nodes : Nodes) (same : nodes.kind = pass.metadata.kind)
    (pure : ∀ node ∈ nodes.pending, node.kind = nodes.kind) (calls : List (Program × Node))
    (spares : p.Spares uses c.program) :
    Ends (drive id pass calls nodes) c (fun state after => state.1 = pass ∧ p.Spares uses after.program)
      (fun e after => e.2 = pass ∧ p.Spares uses after.program) := by
  refine ends_drive id pass.metadata.kind (fun pass' c => pass' = pass ∧ p.Spares uses c.program)
    (fun pass' c => pass' = pass ∧ p.Spares uses c.program) ?_ nodes same pure pass calls c ⟨rfl, spares⟩
  rintro _ c node isKind ⟨rfl, spares⟩
  refine ends_mono _ c _ _ _ _ (ends_visit_remover _ remover c node isKind) ?_ ?_
  · rintro _ c' ⟨rfl, more⟩
    rw [held] at more ⊢
    exact ⟨holding_of_held _ remover (some uses) held, spares.trans more⟩
  · rintro _ _ rfl
    rw [interrupted_remover _ remover _ node isKind, held]
    exact ⟨holding_of_held _ remover (some uses) held, spares⟩

theorem is_remover_settled (p : Program) : (pass.settled p).isRemover = true := by
  rw [settled]
  split
  · exact is_remover_holding pass remover _
  · exact remover

theorem ends_start_remover [Libraries] :
    Ends (drive pass.metadata.id pass [] (.start c.program pass.metadata.kind)) c
      (fun state after => state.1 = pass.settled c.program ∧
        c.program.Spares (Remover.uses pass.held c.program) after.program)
      (fun e after => e.2 = pass.settled c.program ∧
        c.program.Spares (Remover.uses pass.held c.program) after.program) := by
  have none : ∀ node ∈ (Nodes.start c.program pass.metadata.kind).pending, node.kind = pass.metadata.kind :=
    fun node listed => absurd listed List.not_mem_nil
  rw [Ends]
  cases answered : (Nodes.start c.program pass.metadata.kind).next? c.program with
  | none =>
      have idle : pass.finds c.program = false := by rw [finds, answered]; rfl
      rw [run_drive_done pass.metadata.id pass [] _ c answered]
      exact ⟨by rw [settled, idle]; rfl, .refl _ _⟩
  | some call =>
      obtain ⟨node, after⟩ := call
      have busy : pass.finds c.program = true := by rw [finds, answered]; rfl
      obtain ⟨isKind, goesOn, pure⟩ := Nodes.kind_next? c.program _ node after none answered
      rw [run_drive_next pass.metadata.id pass [] _ after c node answered]
      apply ends_bind _ _ c _ (ends_guarded _ _ _ _ c _ (fun left after => left = pass.settled c.program ∧
        c.program.Spares (Remover.uses pass.held c.program) after.program) (ends_mono _ c _ _ _ _
          (ends_visit_remover pass remover c node isKind) (fun _ _ visited => visited) ?_))
      · rintro _ c' ⟨rfl, spares⟩
        rw [settled, busy]
        exact ends_drive_remover _ (is_remover_holding pass remover _) c' _ _ (held_holding pass remover _)
          c.program after (goesOn.trans (by rw [metadata_holding]; rfl)) (goesOn ▸ pure) _ spares
      · rintro _ _ rfl
        rw [interrupted_remover pass remover _ node isKind, settled, busy]
        exact ⟨rfl, .refl _ _⟩

theorem ends_run_remover [Libraries] :
    Ends pass.run c
      (fun ran after => ran.1 = pass.settled c.program ∧
        c.program.Spares (Remover.uses pass.held c.program) after.program)
      (fun e after => e.2 = pass.settled c.program ∧
        c.program.Spares (Remover.uses pass.held c.program) after.program) := by
  rw [run_eq_drive]
  apply ends_bind get _ c (fun now after => now = c ∧ after = c)
  · exact ends_of_yields _ c (yields_get c _ ⟨rfl, rfl⟩)
  · rintro _ _ ⟨rfl, rfl⟩
    apply ends_bind _ _ _ _ (ends_start_remover pass remover _)
    rintro ⟨_, calls⟩ after ⟨rfl, spares⟩
    dsimp only
    rw [finish_remover _ (is_remover_settled pass remover _)]
    exact ⟨rfl, spares⟩

theorem spares_run [Libraries] :
    c.program.Spares (Remover.uses pass.held c.program) (pass.run.run.run c).2.program := by
  have ends := ends_run_remover pass remover c
  rw [Ends] at ends
  rcases ran : pass.run.run.run c with ⟨failure | ⟨left, nodes⟩, after⟩
  · rw [ran] at ends
    exact ends.2
  · rw [ran] at ends
    exact ends.2

end Pass

end JvmEdit
