import JvmEdit.Libraries.Standard
import JvmEdit.Proofs.Flow.Upkeep
import JvmEdit.Proofs.Hierarchy.Session
import JvmEdit.Proofs.Program.Loading
set_option autoImplicit false

namespace JvmEdit

namespace Method

-- The graph and the fault are those that the body has now.
def GraphCurrent [Libraries] (m : Method) : Prop := m.buildGraph = (m.graph, m.flowError)

-- Every local knows its uses in the code as it is now.
def LocalsCurrent (m : Method) : Prop := ∀ v ∈ m.locals, LocalVariable.collect m.code v = v

theorem graph_current_inert [Libraries] (m m' : Method) (change : m.Inert m')
    (current : m.GraphCurrent) : m'.GraphCurrent := by
  have graphs := build_graph_alike change.body
  rw [current] at graphs
  rw [GraphCurrent, graphs, change.graph, change.fault]
  cases m.flowError with
  | none => rfl
  | some e => cases e <;> rfl

theorem locals_current_inert [Libraries] (m m' : Method) (change : m.Inert m')
    (current : m.LocalsCurrent) : m'.LocalsCurrent := by
  intro v member
  rw [change.locals] at member
  rw [collect_alike change.body]
  exact current v member

theorem graph_current_refreshed [Libraries] (m : Method) : m.collectLocals.withGraph.GraphCurrent := rfl

theorem locals_current_collected (m : Method) : m.collectLocals.LocalsCurrent := by
  intro v member
  obtain ⟨v', _, rfl⟩ := List.mem_map.mp member
  rfl

theorem locals_current_refreshed [Libraries] (m : Method) : m.collectLocals.withGraph.LocalsCurrent :=
  locals_current_collected m

theorem locals_current_renamed (r : Renaming) (m : Method) (current : m.LocalsCurrent) :
    (r.methodText m).LocalsCurrent := by
  intro v member
  obtain ⟨v', found, rfl⟩ := List.mem_map.mp member
  have outlines : (m.code.map r.instruction).toList.map Instruction.outline =
      m.code.toList.map Instruction.outline := by
    refine (List.map_map ..).trans (List.map_congr_left fun i _ => ?_)
    obtain ⟨_, _, operand⟩ := i
    cases operand <;> rfl
  have uses : ∀ v, LocalVariable.collect (m.code.map r.instruction) v = LocalVariable.collect m.code v := by
    intro v
    rw [← Flow.collect_outline _ v, outlines]
    exact Flow.collect_outline m.code.toList v
  have moved : LocalVariable.collect m.code (r.localVariable v') =
      r.localVariable (LocalVariable.collect m.code v') := rfl
  exact (uses _).trans (moved.trans (congrArg r.localVariable (current v' found)))

end Method

-- An edit that leaves the names of classes as they are.
def Edit.KeepsClasses : Edit → Prop
  | .renameClass .. => False
  | .member _ | .body .. => True

instance Edit.decidableKeepsClasses : (e : Edit) → Decidable e.KeepsClasses
  | .renameClass .. => inferInstanceAs (Decidable False)
  | .member _ | .body .. => inferInstanceAs (Decidable True)

namespace Program

section Edits

variable [Libraries] {holds : MethodId → Method → Prop}
  (inert : ∀ id m m', m.Inert m' → holds id m → holds id m')
  (refreshed : ∀ id (m : Method), holds id m.collectLocals.withGraph)

include inert refreshed

theorem every_member_outcome (p : Program) (every : p.Every holds) (e : MemberEdit)
    (logged : Logged Program) (done : p.memberOutcome e = .ok logged) : logged.value.Every holds := by
  cases e with
  | renameField id new =>
      obtain ⟨r, renamed, rfl⟩ := except_map _ _ _ done
      exact every_rename_field inert p r every id new renamed
  | renameMethod id new =>
      obtain ⟨r, renamed, rfl⟩ := except_map _ _ _ done
      exact every_rename_method inert p r every id new renamed
  | moveField id destination =>
      obtain ⟨r, moved, rfl⟩ := except_map _ _ _ done
      exact every_move_field inert p r every id destination moved
  | moveMethod id destination =>
      obtain ⟨r, moved, rfl⟩ := except_map _ _ _ done
      exact every_move_method inert p r every id destination moved
  | deleteField id => exact every_delete_field refreshed p every logged id done
  | deleteMethod id => exact every_delete_method inert refreshed p every logged id done
  | deleteInstructions id insns =>
      obtain ⟨r, deleted, rfl⟩ := except_map _ _ _ done
      exact every_delete_instructions inert refreshed p every r id insns deleted

theorem every_carry_out (p : Program) (every : p.Every holds) (e : Edit) (keeps : e.KeepsClasses) :
    (p.carryOut e).Every holds := by
  rw [carry_out_eq]
  split
  · rename_i logged done
    cases e with
    | renameClass _ _ => exact absurd keeps id
    | member e => exact every_member_outcome inert refreshed p every e logged done
    | body id f => exact every_edit_body refreshed p every logged id f done
  · exact every

theorem every_carry_outs (p : Program) (every : p.Every holds) (edits : List Edit)
    (keep : ∀ e ∈ edits, e.KeepsClasses) : (edits.foldl carryOut p).Every holds := by
  induction edits generalizing p with
  | nil => exact every
  | cons e edits ih =>
      apply ih
      · exact every_carry_out inert refreshed p every e (keep e List.mem_cons_self)
      · exact fun later member => keep later (List.mem_cons_of_mem _ member)

end Edits

section Classes

variable (p : Program) {holds : MethodId → Method → Prop} (every : p.Every holds)

include every

theorem every_update_parents (id : ClassId) (f g : Class → Class) :
    (p.updateParents id f g).Every holds :=
  every_methods p _ (methods_update_parents p id f g) every

theorem every_link_hierarchy : p.linkHierarchy.Every holds := by
  simp only [linkHierarchy]
  refine every_foldl _ ?_ _ _ (every_foldl _ ?_ _ p every)
  · exact fun q id kept => every_update_parents q kept id _ _
  · exact fun q _ kept => every_methods q _ rfl kept

theorem every_rename_class (q : Program) (id : ClassId) (new : String)
    (keeps : ∀ (r : Renaming) id m, holds id m → holds id (r.methodText m))
    (done : p.renameClass id new = .ok q) : q.Every holds := by
  have unique := Table.keys_nodup _ every.order
  obtain ⟨old, _, renamed⟩ := methods_rename_class p id q new unique done
  constructor
  · rw [Table.Ordered, renamed, Table.keys_map_values]
    exact every.order
  · intro method m' live
    rw [method?, renamed, Table.get?_map_values] at live
    obtain ⟨m, liveBefore, rfl⟩ := Option.map_eq_some_iff.mp live
    exact keeps _ method m (every.each method m liveBefore)

end Classes

theorem locals_current_carry_out [Libraries] (p : Program)
    (every : p.Every fun _ m => m.LocalsCurrent) (e : Edit) :
    (p.carryOut e).Every fun _ m => m.LocalsCurrent := by
  cases e with
  | renameClass id new =>
      rw [carry_out_eq]
      split
      · rename_i logged done
        obtain ⟨q, renamed, rfl⟩ := except_map _ _ _ done
        exact every_rename_class p every q id new (fun r _ m => m.locals_current_renamed r) renamed
      · exact every
  | member e =>
      exact every_carry_out (fun _ => Method.locals_current_inert) (fun _ => Method.locals_current_refreshed)
        p every (.member e) trivial
  | body id f =>
      exact every_carry_out (fun _ => Method.locals_current_inert) (fun _ => Method.locals_current_refreshed)
        p every (.body id f) trivial

section Building

theorem build_all_program [Libraries] (p : Program) : p.buildAll.value = p.methodIds.foldl
    (fun q id => (q.updateMethod id Method.withGraph).annotateFlow id) p := by
  simp only [buildAll]
  generalize p.methodIds = ids
  induction ids generalizing p with
  | nil => rfl
  | cons id ids ih =>
      rw [List.foldlM_cons, List.foldl_cons]
      have head := congrArg (·.annotateFlow id) (rebuild_graph_program p id)
      exact (ih _).trans (congrArg (List.foldl _ · ids) head)

theorem graph_current_build_all [Libraries] (p : Program) (ordered : p.methods.Ordered) :
    p.buildAll.value.Every fun _ m => m.GraphCurrent := by
  rw [build_all_program]
  apply every_settled
  · exact fun q id ordered => Table.ordered_modify _ _ _ (Table.ordered_modify _ _ _ ordered)
  · intro q id m live
    rw [annotateFlow, method?_update_method, if_pos rfl, method?_update_method, if_pos rfl,
      Option.map_map] at live
    obtain ⟨before, _, rfl⟩ := Option.map_eq_some_iff.mp live
    rfl
  · intro q id other apart
    rw [annotateFlow, method?_update_method, if_neg apart, method?_update_method, if_neg apart]
  · exact ⟨ordered, fun id m live unnamed => absurd ((Table.mem_keys_iff _ _).mpr ⟨m, live⟩) unnamed⟩

theorem locals_current_build_all [Libraries] (p : Program) (every : p.Every fun _ m => m.LocalsCurrent) :
    p.buildAll.value.Every fun _ m => m.LocalsCurrent := by
  rw [build_all_program]
  refine every_foldl _ (fun q id kept => ?_) _ p every
  have rebuilt := every_update_method q id Method.withGraph (fun _ _ current => current) kept
  exact every_update_method _ id _ (fun _ _ current => current) rebuilt

theorem locals_current_load_step {fits : Stream → Prop} (p q : Program) (step : LoadStep fits p q)
    (every : p.Every fun _ m => m.LocalsCurrent) : q.Every fun _ m => m.LocalsCurrent := by
  cases step with
  | advance => exact every_methods p _ rfl every
  | enter => exact every_methods p _ rfl every
  | placeField => exact every_methods p _ rfl every
  | placeMethod owner name m live only code locals =>
      refine ⟨Table.ordered_insert _ _ _ every.order, fun other m' found => ?_⟩
      rw [method?_place_method] at found
      split at found
      · cases found
        intro v member
        change v ∈ m.locals at member
        rw [locals] at member
        cases member
      · exact every.each other m' found
  | fill id code tryRanges locals =>
      refine every_update_method p id _ (fun _ m _ v member => ?_) every
      obtain ⟨v', _, rfl⟩ := List.mem_map.mp member
      rfl
  | limit id =>
      refine every_update_method p id _ ?_ every
      exact fun _ _ current => current

end Building

end Program

-- One thing that can happen to a program before it is built for good; it may have been built before.
inductive WorkStep
  | history (step : HistoryStep)
  | build

namespace Session

def work [Libraries] (s : Session) : WorkStep → Session
  | .history step => s.proceed step
  | .build => { s with program := s.program.buildAll.value }

-- The program that some work has led to.
def prepared [Libraries] (settings : Settings) (steps : List WorkStep) : Program :=
  (steps.foldl work (start settings)).program

section Locals

variable (s : Session) (every : s.program.Every fun _ m => m.LocalsCurrent)

include every

theorem locals_current_act [Libraries] (action : SessionAction) :
    (s.act action).program.Every fun _ m => m.LocalsCurrent := by
  cases action with
  | openBuilder => exact every
  | visit builder event =>
      change (s.visit builder event).program.Every _
      simp only [visit]
      split
      · exact every
      · exact Builder.step_induct (fun _ => True) _ Program.locals_current_load_step _ event trivial every
  | renameClass id new =>
      rw [program_act_rename_class]
      exact Program.locals_current_carry_out s.program every _
  | edit e =>
      rw [program_act_edit]
      exact Program.locals_current_carry_out s.program every _
  | clear => exact ⟨Table.ordered_empty, fun _ _ live => by cases live⟩

theorem locals_current_work [Libraries] (step : WorkStep) :
    (s.work step).program.Every fun _ m => m.LocalsCurrent := by
  cases step with
  | build => exact Program.locals_current_build_all s.program every
  | history step =>
      cases step with
      | act action => exact locals_current_act s every action
      | link => exact Program.every_link_hierarchy s.program every
      | resolve => exact Program.every_resolve_all (fun _ => Method.locals_current_inert) s.program every
      | edit e => exact Program.locals_current_carry_out s.program every e

end Locals

theorem locals_current_prepared [Libraries] (settings : Settings) (steps : List WorkStep) :
    (prepared settings steps).Every fun _ m => m.LocalsCurrent :=
  List.foldlRecOn (motive := fun s : Session => s.program.Every fun _ m => m.LocalsCurrent) steps work
    ⟨Table.ordered_empty, fun _ _ live => by cases live⟩ fun s every step _ => locals_current_work s every step

-- Whatever a program has been through: once it is linked, bound and built, every method keeps the graph
-- and the fault that its body has, and every local the uses that the code has, through all edits of
-- members and bodies, whether these succeed or not.
theorem derived_edits [Libraries] (settings : Settings) (steps : List WorkStep) (edits : List Edit)
    (keep : ∀ e ∈ edits, e.KeepsClasses) :
    let built := (prepared settings steps).linkHierarchy.resolveAll.1.buildAll.value
    let p := edits.foldl Program.carryOut built
    ∀ id m, p.method? id = some m → m.buildGraph = (m.graph, m.flowError) ∧
      ∀ v ∈ m.locals, v.references = (LocalVariable.collect m.code v).references := by
  intro built p id m live
  have bound : (prepared settings steps).linkHierarchy.resolveAll.1.Every fun _ m => m.LocalsCurrent :=
    Program.every_resolve_all (fun _ => Method.locals_current_inert) _
      (Program.every_link_hierarchy _ (locals_current_prepared settings steps))
  have locals : built.Every fun _ m => m.LocalsCurrent := Program.locals_current_build_all _ bound
  have graphs : built.Every fun _ m => m.GraphCurrent := Program.graph_current_build_all _ bound.order
  have current := Program.every_carry_outs (fun _ => Method.graph_current_inert)
    (fun _ => Method.graph_current_refreshed) built graphs edits keep
  have collected := Program.every_carry_outs (fun _ => Method.locals_current_inert)
    (fun _ => Method.locals_current_refreshed) built locals edits keep
  refine ⟨current.each id m live, fun v member => ?_⟩
  rw [collected.each id m live v member]

-- A method that reads a field and keeps it in a local, in a program that is built while it is loaded.
def reader : List WorkStep :=
  let visit (event : ClassEvent) : WorkStep := .history (.act (.visit 0 event))
  [.history (.act .openBuilder), visit (.header ⟨"A", none, [], none, default, 52, [], []⟩),
    visit (.field ⟨"n", "I", none, default, none, []⟩),
    visit (.method ⟨"run", "()V", none, default, [], []⟩), visit .newLabel, visit .newLabel,
    visit (.instruction 0 (.label ⟨0⟩)), visit (.instruction 178 (.field ⟨"A", "n", "I", .read, true⟩)),
    visit (.instruction 60 .simple), visit (.instruction 0 (.label ⟨1⟩)),
    visit (.instruction 177 .simple), visit (.localVariable ⟨"x", "I", none, ⟨0⟩, ⟨1⟩, 1⟩), .build,
    visit (.methodEnd none none), visit .classEnd]

-- The field goes and with it the instruction that reads it; then the body loses its store, the one
-- use of the local.
theorem derived_edits_reader :
    let edits : List Edit := [.member (.deleteField ⟨2⟩), .member (.renameMethod ⟨3⟩ "go"),
      .body ⟨3⟩ fun m => { m with code := m.code.retain (·.opcode ≠ 60) }]
    let built := (prepared {} reader).linkHierarchy.resolveAll.1.buildAll.value
    let p := edits.foldl Program.carryOut built
    (∀ e ∈ edits, e.KeepsClasses) ∧
      (∀ id m, p.method? id = some m → m.buildGraph = (m.graph, m.flowError) ∧
        ∀ v ∈ m.locals, v.references = (LocalVariable.collect m.code v).references) ∧
      (p.method? ⟨3⟩).map (fun m => (m.name, m.code.size, m.locals.map (·.references.toList))) =
        some ("go", 3, [[]]) := by
  intro edits built p
  have keep : ∀ e ∈ edits, e.KeepsClasses := by
    dsimp only [edits]
    decide
  exact ⟨keep, derived_edits {} reader edits keep, by decide +kernel⟩

end Session

end JvmEdit
