import JvmEdit.Libraries.Standard
import JvmEdit.Loader
import JvmEdit.Proofs.Pass.Sparing
import JvmEdit.Proofs.References.Ready
set_option autoImplicit false

namespace JvmEdit

namespace Pipeline

-- The contexts in which passes start, one after the other, up to a first one that fails.
def starts [Libraries] (program : Program) (files : FileTree) : List Pass → List PassContext
  | [] => []
  | pass :: rest =>
      let start : PassContext := { pass := pass.metadata.id, program, files }
      start :: match pass.run.run.run start with
        | (.ok _, after) => starts after.program after.files rest
        | (.error _, _) => []

-- The pass as a run that starts in the context leaves it.
def leaves [Libraries] (pass : Pass) (start : PassContext) : Pass :=
  match (pass.run.run.run start).1 with
  | .ok (ran, _) => ran
  | .error (_, left) => left

section Places

variable (program : Program) (files : FileTree) (passes : List Pass)

theorem passes_run_from [Libraries] (finished : List Pass) (report : PipelineReport)
    (warnings : List Warning) :
    (runFrom finished report program files warnings passes).pipeline.passes =
      finished ++ passes.mapIdx fun k pass => ((starts program files passes)[k]?).elim pass (leaves pass) := by
  induction passes generalizing program files finished report warnings with
  | nil => exact (List.append_nil finished).symm
  | cons pass rest ih =>
      rw [runFrom, starts, List.mapIdx_cons]
      rcases ran : pass.run.run.run { pass := pass.metadata.id, program, files } with
        ⟨⟨failure, left⟩ | ⟨left, nodes⟩, after⟩
      · have stays : rest.mapIdx (fun _ pass => pass) = rest :=
          List.ext_getElem? fun k => by rw [List.getElem?_mapIdx, Option.map_id']
        simp [leaves, ran, stays]
      · simp [leaves, ran, ih]

theorem get_elem?_passes_run [Libraries] (pipeline : Pipeline) (k : Nat) :
    (pipeline.run program files).pipeline.passes[k]? =
      pipeline.passes[k]?.map fun pass => ((starts program files pipeline.passes)[k]?).elim pass (leaves pass) := by
  rw [run, passes_run_from, List.nil_append, List.getElem?_mapIdx]

theorem program_run_from [Libraries] (finished : List Pass) (report : PipelineReport)
    (warnings : List Warning) (k : Nat) (pass : Pass) (c : PassContext) (placed : passes[k]? = some pass)
    (started : (starts program files passes)[k]? = some c) :
    (((starts program files passes)[k + 1]?).map (·.program)).getD
      (runFrom finished report program files warnings passes).program = (pass.run.run.run c).2.program := by
  induction passes generalizing program files finished report warnings k with
  | nil => cases placed
  | cons first rest ih =>
      rw [starts] at started ⊢
      rw [runFrom]
      rcases ran : first.run.run.run { pass := first.metadata.id, program, files } with
        ⟨failure | ⟨left, nodes⟩, after⟩
      · rw [ran] at started
        cases k with
        | zero =>
            cases placed
            cases started
            rw [ran]
            rfl
        | succ k => cases started
      · rw [ran] at started
        cases k with
        | zero =>
            cases placed
            cases started
            rw [ran]
            cases rest <;> rfl
        | succ k => exact ih after.program after.files _ _ _ k placed started

theorem starts_first [Libraries] (first : Pass) (placed : passes[0]? = some first) :
    (starts program files passes)[0]? = some { pass := first.metadata.id, program, files } := by
  cases passes with
  | nil => cases placed
  | cons pass rest =>
      cases placed
      rfl

end Places

-- What a run has made of the program once the pass at a place is done: where the next one starts, or the end.
def stage [Libraries] (pipeline : Pipeline) (program : Program) (files : FileTree) (k : Nat) :
    Program :=
  (((starts program files pipeline.passes)[k + 1]?).map (·.program)).getD (pipeline.run program files).program

-- The pipeline after runs over these programs, one after the other.
def rerun [Libraries] (pipeline : Pipeline) (history : List (Program × FileTree)) : Pipeline :=
  history.foldl (fun now (program, files) => (now.run program files).pipeline) pipeline

-- The programs over which the pass at a place has started.
def met [Libraries] (k : Nat) (pipeline : Pipeline) : List (Program × FileTree) → List Program
  | [] => []
  | (program, files) :: later =>
      (((starts program files pipeline.passes)[k]?).map (·.program)).toList ++
        met k (pipeline.run program files).pipeline later

section Remover

variable (k : Nat) (pass : Pass) (remover : pass.isRemover = true)

include remover

theorem leaves_remover [Libraries] (start : PassContext) :
    leaves pass start = pass.settled start.program := by
  have ends := Pass.ends_run_remover pass remover start
  rw [Ends] at ends
  rw [leaves]
  rcases ran : pass.run.run.run start with ⟨⟨failure, left⟩ | ⟨left, nodes⟩, after⟩
  · rw [ran] at ends
    exact ends.1
  · rw [ran] at ends
    exact ends.1

theorem placed_rerun [Libraries] (pipeline : Pipeline) (placed : pipeline.passes[k]? = some pass)
    (history : List (Program × FileTree)) :
    (pipeline.rerun history).passes[k]? = some (pass.holding
      (pass.held.or (((pipeline.met k history).find? pass.finds).map HiddenUses.ofProgram))) := by
  induction history generalizing pipeline pass with
  | nil =>
      rw [met, List.find?_nil, Option.map_none, Option.or_none, Pass.holding_of_held pass remover _ rfl]
      exact placed
  | cons entry later ih =>
      obtain ⟨program, files⟩ := entry
      have next := get_elem?_passes_run program files pipeline k
      rw [placed, Option.map_some] at next
      rw [met]
      change ((pipeline.run program files).pipeline.rerun later).passes[k]? = _
      cases started : (starts program files pipeline.passes)[k]? with
      | none =>
          rw [started] at next
          exact ih pass remover _ next
      | some start =>
          rw [started, Option.elim_some, leaves_remover pass remover] at next
          rw [Option.map_some, Option.toList_some, List.singleton_append, List.find?_cons]
          rw [ih _ (Pass.is_remover_settled pass remover _) _ next, Pass.settled]
          cases pass.finds start.program with
          | false => rfl
          | true =>
              rw [if_pos rfl, Pass.holding_holding, Pass.held_holding pass remover, Option.some_or]
              cases pass.held <;> rfl

-- A remover that a pipeline is given empty goes by the first program in which it found something to visit,
-- if not before then in this run: it leaves the members in place that this program uses without binding them.
theorem spares_rerun [Libraries] (pipeline : Pipeline) (placed : pipeline.passes[k]? = some pass)
    (empty : pass.held = none)
    (history : List (Program × FileTree)) (program : Program) (files : FileTree) (start : PassContext)
    (started : (starts program files (pipeline.rerun history).passes)[k]? = some start) :
    ∀ member u, start.program.memberUse? member = some u →
      (((pipeline.met k history ++ [start.program]).find? pass.finds).getD start.program).Hides u →
        ((pipeline.rerun history).stage program files k).memberUse? member = some u := by
  let hidden := ((pipeline.met k history).find? pass.finds).map HiddenUses.ofProgram
  let decisive := ((pipeline.met k history ++ [start.program]).find? pass.finds).getD start.program
  have now := placed_rerun k pass remover pipeline placed history
  rw [empty, Option.none_or] at now
  have spares := Pass.spares_run _ (Pass.is_remover_holding pass remover hidden) start
  have goesBy : Remover.uses hidden start.program = .ofProgram decisive := by
    unfold hidden decisive
    rw [List.find?_append]
    cases (pipeline.met k history).find? pass.finds with
    | some q => rfl
    | none =>
        rw [Option.none_or, List.find?_singleton]
        split <;> rfl
  rw [Pass.held_holding pass remover, goesBy] at spares
  intro member u named hides
  rw [stage, run, program_run_from program files _ [] {} [] k _ start now started]
  exact spares member u named (HiddenUses.has_of_program u decisive hides)

end Remover

end Pipeline

namespace Session

-- A field is read under the name of a class that only inherits it, so that the read is bound to nothing.
-- The class that is the type of the field has a short name.
def inheritedRead : List SessionAction :=
  let header (name super : String) : ClassEvent := .header ⟨name, some super, [], none, default, 52, [], []⟩
  [.openBuilder, .visit 0 (header "a/b" "java/lang/Object"), .visit 0 .classEnd,
    .visit 0 (header "Base" "java/lang/Object"), .visit 0 (.field ⟨"x", "La/b;", none, .staticFlag, none, []⟩),
    .visit 0 .classEnd, .visit 0 (header "Child" "Base"), .visit 0 .classEnd,
    .visit 0 (header "Other" "java/lang/Object"), .visit 0 (.method ⟨"main", "()V", none, .staticFlag, [], []⟩),
    .visit 0 (.instruction .getStatic (.field ⟨"Child", "x", "La/b;", .read, true⟩)),
    .visit 0 (.instruction .returnVoid .simple), .visit 0 .classEnd]

theorem hides_read (p : Program) (descriptor : String) (m : Method) (live : p.method? ⟨6⟩ = some m)
    (member : ⟨⟨7⟩, .getStatic, .field ⟨"Child", "x", descriptor, .read, true⟩⟩ ∈ m.code.toList)
    (unbound : p.lookup? (some m.owner) (.field ⟨"Child", "x", descriptor, .read, true⟩) = none) :
    p.Hides (.field "x" descriptor) :=
  .code ⟨6⟩ m _ live member (by rw [Operand.hiddenUse?, unbound]; rfl)

-- The second program does not read the field any more, but the first one did.
theorem spares_rerun_unread :
    let p := ready {} inheritedRead
    let q := p.perform (.deleteInstructions ⟨6⟩ [⟨7⟩])
    let pipeline : Pipeline := ⟨[.unusedFieldRemover none]⟩
    let again := pipeline.rerun [(p, .empty)]
    (pipeline.passes[0]? = some (.unusedFieldRemover none) ∧
      (Pipeline.starts q .empty again.passes)[0]? = some ⟨"unused-field-remover", q, .empty, [], []⟩ ∧
      pipeline.met 0 [(p, .empty)] = [p] ∧ p.Hides (.field "x" "La/b;")) ∧
    (again.stage q .empty 0).memberUse? (.field ⟨3⟩) = some (.field "x" "La/b;") := by
  intro p q pipeline again
  let pass : Pass := .unusedFieldRemover none
  let start (program : Program) : PassContext := ⟨"unused-field-remover", program, .empty, [], []⟩
  have found : pass.finds p = true := by decide +kernel
  have met : pipeline.met 0 [(p, .empty)] = [p] := rfl
  have now := Pipeline.placed_rerun 0 pass rfl pipeline rfl [(p, .empty)]
  have started : (Pipeline.starts q .empty again.passes)[0]? = some (start q) := by
    rw [Pipeline.starts_first q .empty again.passes _ now, Pass.metadata_holding]
    rfl
  have hides : p.Hides (.field "x" "La/b;") :=
    hides_read p "La/b;" ((p.method? ⟨6⟩).getD default) (by decide +kernel) (by decide +kernel) (by decide +kernel)
  refine ⟨⟨rfl, started, met, hides⟩, ?_⟩
  refine Pipeline.spares_rerun 0 pass rfl pipeline rfl rfl [(p, .empty)] q .empty (start q) started (.field ⟨3⟩)
    (.field "x" "La/b;") (by decide +kernel) ?_
  rw [met, List.singleton_append, List.find?_cons, found]
  exact hides

-- After the first run the field has another descriptor, and the second run deletes it although the program
-- it is given still reads it.
theorem rerun_deletes_read :
    let pipeline : Pipeline := ⟨[.unusedFieldRemover none, .classRenamer 0]⟩
    let first := pipeline.run (ready {} inheritedRead) .empty
    let second := first.pipeline.run first.program first.files
    let read : HiddenUse := .field "x" "La/Class1;"
    first.program.Hides read ∧ first.program.memberUse? (.field ⟨3⟩) = some read ∧
      (second.result.isOk = true ∧ second.program.memberUse? (.field ⟨3⟩) = none) := by
  intro pipeline first second read
  refine ⟨?_, by decide +kernel, by decide +kernel, by decide +kernel⟩
  exact hides_read first.program "La/Class1;" ((first.program.method? ⟨6⟩).getD default) (by decide +kernel)
    (by decide +kernel) (by decide +kernel)

end Session

-- What can be done with a loader, between launches and with what they leave.
inductive LoaderAction
  | setInput (input : String)
  | scan (files : FileTree)
  | edit (f : Program → Program)
  | launch (files : FileTree)

namespace Loader

def act [Libraries] (l : Loader) : LoaderAction → Loader
  | .setInput input => l.setInput input
  | .scan files => (l.scan files).1
  | .edit f => { l with program := f l.program }
  | .launch files => (l.launch files).loader

theorem pipeline_act [Libraries] (l : Loader) (action : LoaderAction) :
    ∃ history, (l.act action).pipeline = l.pipeline.rerun history := by
  cases action with
  | setInput input => exact ⟨[], rfl⟩
  | edit f => exact ⟨[], rfl⟩
  | scan files =>
      refine ⟨[], ?_⟩
      rw [act, scan]
      split
      · rfl
      · split <;> rfl
  | launch files =>
      rw [act, launch]
      split
      · exact ⟨[], rfl⟩
      · exact ⟨[(l.program, files)], rfl⟩

theorem pipeline_acts [Libraries] (l : Loader) (actions : List LoaderAction) :
    ∃ history, (actions.foldl act l).pipeline = l.pipeline.rerun history := by
  induction actions generalizing l with
  | nil => exact ⟨[], rfl⟩
  | cons action actions ih =>
      obtain ⟨first, one⟩ := pipeline_act l action
      obtain ⟨later, all⟩ := ih (l.act action)
      refine ⟨first ++ later, ?_⟩
      rw [List.foldl_cons, all, one, Pipeline.rerun, Pipeline.rerun, Pipeline.rerun, List.foldl_append]

end Loader

end JvmEdit
