import JvmEdit.Libraries.Standard
import JvmEdit.Loader
import JvmEdit.Proofs.Pass.Classes
import JvmEdit.Proofs.Scan.Isolation
import Mathlib.Data.List.Induction
import Mathlib.Data.String.Basic
set_option autoImplicit false

namespace JvmEdit

namespace Builder

-- The classes of the program are those that were there before and those that are counted as created.
def Counted (before : List ClassId) (b : Builder) : Prop :=
  ∀ id, id ∈ b.program.classIds ↔ id ∈ before ∨ id ∈ b.created

variable {before : List ClassId} {b : Builder} (counted : b.Counted before)

include counted

theorem Counted.of_same {b' : Builder}
    (same : b'.created = b.created ∧ b'.program.classIds = b.program.classIds) : b'.Counted before := by
  intro id
  rw [same.1, same.2]
  exact counted id

theorem counted_flush : b.flush.Counted before := by
  refine counted.of_same ⟨?_, (same_names_flush b).classIds⟩
  rw [flush]
  split <;> rfl

theorem counted_enter_class (h : ClassHeader) : (b.enterClass h).Counted before := by
  unfold enterClass
  dsimp only
  split
  · exact counted
  · intro id
    rw [List.mem_cons, or_left_comm, ← counted id]
    exact Table.mem_place_keys _ id _ b.program.classes.toList

theorem counted_enter_field (d : FieldDecl) : (b.enterField d).Counted before := by
  unfold enterField
  split
  · exact counted
  · dsimp only
    split
    · rename_i done
      obtain ⟨name, _, _, rfl⟩ := Program.attach_field_ok _ _ _ _ _ done
      exact counted.of_same ⟨rfl, Program.class_ids_update_class _ _ _⟩
    · exact counted

theorem counted_enter_method (d : MethodDecl) : (b.enterMethod d).Counted before := by
  unfold enterMethod
  split
  · exact counted
  · dsimp only
    split
    · rename_i done
      obtain ⟨name, _, _, rfl⟩ := Program.attach_method_ok _ _ _ _ _ done
      exact counted.of_same ⟨rfl, Program.class_ids_update_class _ _ _⟩
    · exact counted

theorem counted_step (event : ClassEvent) : (b.step event).Counted before := by
  cases event with
  | header h => exact counted_enter_class (counted_flush counted) h
  | field d => exact counted_enter_field counted d
  | method d =>
      have unlabelled : Counted before { b.flush with labels := #[] } :=
        (counted_flush counted).of_same ⟨rfl, rfl⟩
      exact counted_enter_method unlabelled d
  | newLabel => exact counted
  | instruction opcode operand =>
      change (b.addInstruction opcode operand).Counted before
      rw [addInstruction]
      split <;> exact counted
  | tryRange d =>
      change (b.addTryRange d).Counted before
      rw [addTryRange]
      split <;> exact counted
  | localVariable d =>
      change (b.addLocal d).Counted before
      rw [addLocal]
      split <;> exact counted
  | methodEnd maxStack maxLocals =>
      change (b.endMethod maxStack maxLocals).Counted before
      rw [endMethod]
      split
      · exact counted
      · exact counted_flush (counted.of_same ⟨rfl, rfl⟩)
  | classEnd => exact (counted_flush counted).of_same ⟨rfl, rfl⟩

theorem counted_run (events : List ClassEvent) : (b.run events).Counted before := by
  induction events generalizing b with
  | nil => exact counted
  | cons event events ih => exact ih (counted_step counted event)

end Builder

namespace Scanned

-- The classes of the program are those that are answered.
def Answers (s : Scanned) : Prop := ∀ id, id ∈ s.program.classIds ↔ id ∈ s.output.classes

theorem answers_entering (s : Scanned) (answers : s.Answers) (origin : String) (events : List ClassEvent) :
    (s.entering origin events).Answers := by
  intro id
  have start : (Builder.new s.program).Counted s.program.classIds := fun id =>
    (or_iff_left List.not_mem_nil).symm
  have loaded := Builder.counted_run start events id
  change id ∈ ((Builder.new s.program).run events).program.classIds ↔
    id ∈ s.output.classes ++ ((Builder.new s.program).run events).created.reverse
  rw [loaded, answers id, List.mem_append, List.mem_reverse]

theorem answers_loading [Libraries] (s : Scanned) (answers : s.Answers) (source : ClassSource) :
    (s.loading source).Answers := by
  cases decoded : ClassFile.decode source.bytes s.program.settings.skipDebug with
  | error e =>
      rw [loading_error decoded]
      exact answers
  | ok told =>
      rw [loading_ok decoded]
      exact answers_entering s answers source.origin told.value.events

theorem answers_of_collection [Libraries] (p : Program) (bare : p.classIds = []) (c : Collection) :
    (ofCollection p c).value.Answers := by
  have start : ({ program := p, output.artifacts := c.artifacts } : Scanned).Answers := by
    intro id
    change id ∈ p.classIds ↔ id ∈ []
    rw [bare]
  have loaded : (decoded p c).value.Answers := by
    rw [value_decoded]
    exact List.foldlRecOn c.sources _ start fun s answers source _ => answers_loading s answers source
  rw [value_of_collection]
  intro id
  change id ∈ Program.classIds (Logged.value _) ↔ _
  rw [Program.class_ids_build_all, (Program.same_names_resolve_all _).classIds, Program.class_ids_link_hierarchy]
  exact loaded id

end Scanned

inductive LoaderCall
  | setInput (input : String)
  | addPass (pass : Pass)
  | scan (files : FileTree)
  | launch (files : FileTree)

def LoaderCall.isScan : LoaderCall → Bool
  | scan _ => true
  | _ => false

namespace Loader

def perform [Libraries] (l : Loader) : LoaderCall → Loader
  | .setInput input => l.setInput input
  | .addPass pass => l.addPass pass
  | .scan files => (l.scan files).1
  | .launch files => (l.launch files).loader

def performAll [Libraries] (l : Loader) (calls : List LoaderCall) : Loader := calls.foldl perform l

-- The call is a scan that succeeds.
def succeeds [Libraries] (l : Loader) : LoaderCall → Bool
  | .scan files => (l.scan files).2.isOk
  | _ => false

-- No scan among the calls succeeds.
def NoneSucceeds [Libraries] (l : Loader) : List LoaderCall → Prop
  | [] => True
  | call :: calls => l.succeeds call = false ∧ (l.perform call).NoneSucceeds calls

-- What launches make of a program until the next scan, with the passes that are added between them.
def launched [Libraries] (passes : Pipeline) (p : Program) : List LoaderCall → Program
  | .launch files :: calls =>
      let run := passes.run p files
      launched run.pipeline run.program calls
  | .addPass pass :: calls => launched (passes.add pass) p calls
  | .setInput _ :: calls => launched passes p calls
  | .scan _ :: _ => p
  | [] => p

-- The classes that the last scan answered are live.
def Coherent (l : Loader) : Prop :=
  ∀ output, l.scanned = some output → ∀ id ∈ output.classes, id ∈ l.program.classIds

-- Between the calls a scan succeeds with this result, which is that of a scan of an empty program, and none
-- of the later ones does.
structure LastScan [Libraries] (start : Loader) (before : List LoaderCall) (files : FileTree)
    (after : List LoaderCall) (result : Scanned) : Prop where
  succeeds : ∃ input found, (start.performAll before).input = some input ∧
    Collection.ofInput files input = .ok found ∧
    result = (Scanned.ofCollection (start.performAll before).program.clear found).value
  last : (start.performAll (before ++ [.scan files])).NoneSucceeds after

section Calls

variable (l : Loader)

theorem perform_all_append [Libraries] (calls calls' : List LoaderCall) :
    l.performAll (calls ++ calls') = (l.performAll calls).performAll calls' := List.foldl_append

theorem none_succeeds_append [Libraries] (calls calls' : List LoaderCall) :
    l.NoneSucceeds (calls ++ calls') ↔ l.NoneSucceeds calls ∧ (l.performAll calls).NoneSucceeds calls' := by
  induction calls generalizing l with
  | nil => exact (and_iff_right trivial).symm
  | cons call calls ih => rw [List.cons_append, NoneSucceeds, ih, NoneSucceeds, and_assoc]; rfl

theorem scan_collected [Libraries] (files : FileTree) (input : String) (found : Collection)
    (given : l.input = some input)
    (collected : Collection.ofInput files input = .ok found) : (l.scan files).1 = { l with
      program := (Scanned.ofCollection l.cleared found).value.program
      scanned := some (Scanned.ofCollection l.cleared found).value.output } := by
  rw [scan, given]
  dsimp only
  rw [Program.scan, collected]
  rfl

theorem scan_ok [Libraries] (files : FileTree) (done : (l.scan files).2.isOk = true) :
    ∃ input found, l.input = some input ∧ Collection.ofInput files input = .ok found := by
  unfold scan at done
  split at done
  · cases done
  · rename_i input given
    cases collected : Collection.ofInput files input with
    | error e =>
        rw [Program.scan, collected] at done
        cases done
    | ok found => exact ⟨input, found, given, collected⟩

theorem scan_failed [Libraries] (files : FileTree) (failed : (l.scan files).2.isOk = false) :
    (l.scan files).1 = { l with program := if l.input.isSome then l.cleared else l.program } := by
  obtain ⟨p, input, scanned, passes⟩ := l
  cases input with
  | none => rfl
  | some input =>
      unfold scan Program.scan at failed ⊢
      dsimp only at failed ⊢
      cases collected : Collection.ofInput files input with
      | error e => rfl
      | ok found =>
          rw [collected] at failed
          cases failed

theorem scan_cases [Libraries] (files : FileTree) :
    (∃ result : Scanned, (l.scan files).1 = { l with
      program := result.program, scanned := some result.output }) ∨
    (l.scan files).1 = { l with program := if l.input.isSome then l.cleared else l.program } := by
  cases done : (l.scan files).2.isOk with
  | true =>
      obtain ⟨input, found, given, collected⟩ := l.scan_ok files done
      exact .inl ⟨_, l.scan_collected files input found given collected⟩
  | false => exact .inr (l.scan_failed files done)

theorem scan_clears [Libraries] (files : FileTree) (failed : (l.scan files).2.isOk = false)
    (given : l.scanned.isSome → l.input.isSome) : (l.scan files).1 =
      { l with program := if l.scanned.isSome then l.program.clear else l.program } := by
  rw [l.scan_failed files failed, cleared]
  cases scanned : l.scanned.isSome with
  | true => rw [if_pos (given scanned)]
  | false => simp only [Bool.false_eq_true, if_false, ite_self]

theorem scan_of_fails [Libraries] (files : FileTree) (failed : l.succeeds (.scan files) = false) :
    l.perform (.scan files) = { l with program := if l.input.isSome then l.cleared else l.program } :=
  l.scan_failed files failed

theorem launch_of_scanned [Libraries] (files : FileTree) (output : ScanOutput)
    (scanned : l.scanned = some output) : l.perform (.launch files) = { l with
      program := (l.pipeline.run l.program files).program
      pipeline := (l.pipeline.run l.program files).pipeline } := by
  rw [perform, launch, scanned]
  rfl

theorem perform_all_unscanned [Libraries] (calls : List LoaderCall) (unscanned : l.scanned = none)
    (fails : l.NoneSucceeds calls) :
    (l.performAll calls).scanned = none ∧ (l.performAll calls).program = l.program := by
  induction calls generalizing l with
  | nil => exact ⟨unscanned, rfl⟩
  | cons call calls ih =>
      have one : (l.perform call).scanned = none ∧ (l.perform call).program = l.program := by
        cases call with
        | setInput input => exact ⟨unscanned, rfl⟩
        | addPass pass => exact ⟨unscanned, rfl⟩
        | scan files =>
            rw [l.scan_of_fails files fails.1, cleared, unscanned]
            exact ⟨rfl, ite_self _⟩
        | launch files =>
            rw [perform, launch, unscanned]
            exact ⟨unscanned, rfl⟩
      obtain ⟨still, same⟩ := ih (l.perform call) one.1 fails.2
      exact ⟨still, same.trans one.2⟩

theorem scanned_perform [Libraries] (call : LoaderCall) (output : ScanOutput)
    (scanned : l.scanned = some output) (given : l.input.isSome) (fails : l.succeeds call = false) :
    (l.perform call).scanned = some output ∧ (l.perform call).input.isSome := by
  cases call with
  | setInput input => exact ⟨scanned, rfl⟩
  | addPass pass => exact ⟨scanned, given⟩
  | scan files =>
      rw [l.scan_of_fails files fails]
      exact ⟨scanned, given⟩
  | launch files =>
      rw [l.launch_of_scanned files output scanned]
      exact ⟨scanned, given⟩

theorem perform_all_emptied [Libraries] (calls : List LoaderCall) (output : ScanOutput)
    (scanned : l.scanned = some output)
    (given : l.input.isSome) (fails : l.NoneSucceeds calls) (empty : l.program.clear = l.program) :
    (l.performAll calls).program = l.program := by
  induction calls generalizing l with
  | nil => rfl
  | cons call calls ih =>
      obtain ⟨scannedNow, givenNow⟩ := l.scanned_perform call output scanned given fails.1
      have one : (l.perform call).program = l.program := by
        cases call with
        | setInput input => rfl
        | addPass pass => rfl
        | scan files =>
            rw [l.scan_of_fails files fails.1, if_pos given, cleared, if_pos (by rw [scanned]; rfl)]
            exact empty
        | launch files =>
            rw [l.launch_of_scanned files output scanned]
            apply Pipeline.run_empty
            rw [← empty]
            exact ⟨rfl, rfl, rfl⟩
      rw [← one]
      exact ih (l.perform call) scannedNow givenNow fails.2 (by rw [one, empty])

theorem perform_all_scanned [Libraries] (calls : List LoaderCall) (output : ScanOutput)
    (scanned : l.scanned = some output) (given : l.input.isSome) (fails : l.NoneSucceeds calls) :
    (l.performAll calls).scanned = some output ∧ (l.performAll calls).input.isSome ∧
      (l.performAll calls).program = if calls.any LoaderCall.isScan then
        (launched l.pipeline l.program calls).clear else launched l.pipeline l.program calls := by
  induction calls generalizing l with
  | nil => exact ⟨scanned, given, rfl⟩
  | cons call calls ih =>
      obtain ⟨scannedNow, givenNow⟩ := l.scanned_perform call output scanned given fails.1
      obtain ⟨still, stillGiven, held⟩ := ih (l.perform call) scannedNow givenNow fails.2
      refine ⟨still, stillGiven, ?_⟩
      cases call with
      | setInput input => exact held
      | addPass pass => exact held
      | scan files =>
          have cleared : (l.perform (.scan files)).program = l.program.clear := by
            rw [l.scan_of_fails files fails.1, if_pos given, cleared, if_pos (by rw [scanned]; rfl)]
          have emptied := perform_all_emptied _ calls output scannedNow givenNow fails.2 (by rw [cleared]; rfl)
          exact emptied.trans cleared
      | launch files =>
          have ran := l.launch_of_scanned files output scanned
          rw [ran] at held
          exact (congrArg (fun l => (l.performAll calls).program) ran).trans held

theorem cleared_perform_all [Libraries] (calls : List LoaderCall)
    (fresh : l.scanned = none → l.program.clear = l.program) :
    (l.performAll calls).cleared = (l.performAll calls).program.clear := by
  induction calls generalizing l with
  | nil =>
      rw [performAll, List.foldl_nil, cleared]
      cases scanned : l.scanned with
      | none => exact (fresh scanned).symm
      | some output => rfl
  | cons call calls ih =>
      apply ih (l.perform call)
      intro unscanned
      cases call with
      | setInput input => exact fresh unscanned
      | addPass pass => exact fresh unscanned
      | launch files =>
          cases scanned : l.scanned with
          | none =>
              rw [perform, launch, scanned]
              exact fresh scanned
          | some output =>
              rw [l.launch_of_scanned files output scanned] at unscanned
              cases scanned.symm.trans unscanned
      | scan files =>
          rw [perform] at unscanned ⊢
          rcases l.scan_cases files with ⟨result, done⟩ | failed
          · rw [done] at unscanned
            cases unscanned
          · rw [failed] at unscanned ⊢
            have empty := fresh unscanned
            dsimp only
            rw [cleared, show l.scanned = none from unscanned]
            split <;> exact empty

theorem last_scan_of_calls [Libraries] (calls : List LoaderCall) :
    l.NoneSucceeds calls ∨ ∃ before files after result,
    calls = before ++ .scan files :: after ∧ l.LastScan before files after result := by
  induction calls using List.reverseRecOn with
  | nil => exact .inl trivial
  | append_singleton calls call ih =>
      cases done : (l.performAll calls).succeeds call with
      | true =>
          cases call with
          | scan files =>
              obtain ⟨input, found, given, collected⟩ := (l.performAll calls).scan_ok files done
              exact .inr ⟨calls, files, [], _, rfl, ⟨input, found, given, collected, rfl⟩, trivial⟩
          | _ => cases done
      | false =>
          refine ih.imp (fun none => ?_) ?_
          · exact (l.none_succeeds_append calls [call]).mpr ⟨none, done, trivial⟩
          · rintro ⟨before, files, after, result, rfl, last⟩
            refine ⟨before, files, after ++ [call], result, List.append_assoc .., last.succeeds, ?_⟩
            refine (none_succeeds_append _ after [call]).mpr ⟨last.last, ?_, trivial⟩
            rw [← perform_all_append, List.append_assoc]
            exact done

theorem LastScan.performed [Libraries] {before after : List LoaderCall} {files : FileTree}
    {result : Scanned}
    (last : l.LastScan before files after result) (fresh : l.scanned = none → l.program.clear = l.program) :
    l.performAll (before ++ [.scan files]) =
      { l.performAll before with program := result.program, scanned := some result.output } := by
  obtain ⟨input, found, given, collected, rfl⟩ := last.succeeds
  rw [← l.cleared_perform_all before fresh, perform_all_append]
  exact scan_collected _ files input found given collected

end Calls

section Classes

variable (l : Loader)

theorem classes_perform [Libraries] (call : LoaderCall)
    (fair : ∀ pass ∈ l.pipeline.passes, pass.DropsNoClass)
    (added : ∀ pass, call = .addPass pass → pass.DropsNoClass) :
    (∀ pass ∈ (l.perform call).pipeline.passes, pass.DropsNoClass) ∧
      (call.isScan = false → l.program.classIds ⊆ (l.perform call).program.classIds) := by
  cases call with
  | setInput input => exact ⟨fair, fun _ => List.Subset.refl _⟩
  | addPass pass =>
      refine ⟨fun one listed => ?_, fun _ => List.Subset.refl _⟩
      rcases List.mem_append.mp listed with before | last
      · exact fair one before
      · rw [List.mem_singleton.mp last]
        exact added pass rfl
  | scan files =>
      refine ⟨?_, fun quiet => by cases quiet⟩
      rw [perform]
      rcases l.scan_cases files with ⟨result, done⟩ | failed
      · rw [done]
        exact fair
      · rw [failed]
        exact fair
  | launch files =>
      cases scanned : l.scanned with
      | none =>
          rw [perform, launch, scanned]
          exact ⟨fair, fun _ => List.Subset.refl _⟩
      | some output =>
          obtain ⟨classes, fairNow⟩ := l.pipeline.run_classes l.program files fair
          rw [l.launch_of_scanned files output scanned]
          exact ⟨fairNow, fun _ => classes⟩

theorem classes_perform_all [Libraries] (calls : List LoaderCall)
    (fair : ∀ pass ∈ l.pipeline.passes, pass.DropsNoClass)
    (added : ∀ pass, .addPass pass ∈ calls → pass.DropsNoClass) :
    (∀ pass ∈ (l.performAll calls).pipeline.passes, pass.DropsNoClass) ∧
      (calls.any LoaderCall.isScan = false → l.program.classIds ⊆ (l.performAll calls).program.classIds) := by
  induction calls generalizing l with
  | nil => exact ⟨fair, fun _ => List.Subset.refl _⟩
  | cons call calls ih =>
      obtain ⟨fairNow, one⟩ := l.classes_perform call fair fun pass isCall =>
        added pass (isCall ▸ List.mem_cons_self)
      obtain ⟨fairThen, all⟩ := ih (l.perform call) fairNow fun pass listed =>
        added pass (List.mem_cons_of_mem call listed)
      refine ⟨fairThen, fun quiet => ?_⟩
      rw [List.any_cons, Bool.or_eq_false_iff] at quiet
      exact List.Subset.trans (one quiet.1) (all quiet.2)

end Classes

section Account

variable [Libraries] {start : Loader} (empty : start.program.clear = start.program)
  {before after : List LoaderCall}
  {files : FileTree} {result : Scanned} (last : start.LastScan before files after result)

include last

theorem LastScan.answers : result.Answers := by
  obtain ⟨input, found, _, _, rfl⟩ := last.succeeds
  exact Scanned.answers_of_collection _ rfl found

include empty

theorem LastScan.holds : let l := start.performAll (before ++ .scan files :: after)
    l.scanned = some result.output ∧ l.input.isSome ∧
      l.program = (let held := launched (start.performAll before).pipeline result.program after
        if after.any LoaderCall.isScan then held.clear else held) := by
  obtain ⟨input, found, given, _, _⟩ := last.succeeds
  have performed := last.performed start fun _ => empty
  have split : before ++ .scan files :: after = before ++ [.scan files] ++ after := List.append_cons ..
  have kept := perform_all_scanned (start.performAll (before ++ [.scan files])) after result.output
    (by rw [performed]) (by rw [performed, given]; rfl) last.last
  rw [← perform_all_append, ← split] at kept
  rw [performed] at kept
  exact kept

theorem LastScan.coherent (quiet : after.any LoaderCall.isScan = false)
    (fair : ∀ pass ∈ start.pipeline.passes, pass.DropsNoClass)
    (added : ∀ pass, .addPass pass ∈ before ++ .scan files :: after → pass.DropsNoClass) :
    (start.performAll (before ++ .scan files :: after)).Coherent := by
  intro output scanned id listed
  cases (last.holds empty).1.symm.trans scanned
  have split : before ++ .scan files :: after = before ++ [.scan files] ++ after := List.append_cons ..
  rw [split] at added ⊢
  have fairNow := (start.classes_perform_all (before ++ [.scan files]) fair
    fun pass one => added pass (List.mem_append_left after one)).1
  have kept := (classes_perform_all _ after fairNow fun pass one =>
    added pass (List.mem_append_right _ one)).2 quiet
  rw [← perform_all_append, last.performed start fun _ => empty] at kept
  exact kept ((last.answers id).mpr listed)

theorem LastScan.coherent_iff (failed : after.any LoaderCall.isScan = true) :
    (start.performAll (before ++ .scan files :: after)).Coherent ↔ result.output.classes = [] := by
  obtain ⟨account, _, held⟩ := last.holds empty
  dsimp only at held
  rw [if_pos failed] at held
  constructor
  · intro coherent
    have live := coherent result.output account
    rw [held] at live
    exact List.eq_nil_iff_forall_not_mem.mpr fun id listed => absurd (live id listed) List.not_mem_nil
  · intro none output scanned id listed
    cases account.symm.trans scanned
    rw [none] at listed
    cases listed

end Account

end Loader

namespace Path

section Names

open String

theorem split_on_aux_single (before after : List Char) (single : '/' ∉ after) :
    (ofList (before ++ after)).splitOnAux "/" 0 ⟨utf8Len before⟩ 0 [] = [ofList (before ++ after)] := by
  induction after generalizing before with
  | nil =>
      have whole := extract_of_valid [] before []
      rw [splitOnAux, if_pos ((atEnd_of_valid before []).mpr rfl)]
      rw [List.nil_append, utf8Len_nil, Nat.zero_add, List.append_nil] at whole
      rw [List.append_nil]
      exact congrArg (fun text => [text]) whole
  | cons c after ih =>
      obtain ⟨differs, later⟩ := not_or.mp (mt List.mem_cons.mpr single)
      have goesOn := ih (before ++ [c]) later
      rw [List.append_assoc, List.singleton_append, utf8Len_append, utf8Len_cons, utf8Len_nil,
        Nat.zero_add] at goesOn
      have inside : ¬Pos.Raw.atEnd (ofList (before ++ c :: after)) ⟨utf8Len before⟩ = true :=
        mt (atEnd_of_valid before (c :: after)).mp (List.cons_ne_nil c after)
      have stays : (⟨utf8Len before⟩ : Pos.Raw).unoffsetBy 0 = ⟨utf8Len before⟩ := rfl
      rw [splitOnAux, if_neg inside, get_of_valid,
        if_neg (by simpa [show Pos.Raw.get "/" 0 = '/' by decide] using Ne.symm differs), stays, next_of_valid]
      exact goesOn

theorem names_single (path : String) (single : '/' ∉ path.toList) : names path = [path] := by
  have whole := split_on_aux_single [] path.toList single
  rw [List.nil_append, ofList_toList] at whole
  exact whole

end Names

theorem is_absolute_single (path : String) (single : '/' ∉ path.toList) : isAbsolute path = false := by
  rw [isAbsolute, String.startsWith_string_eq_false_iff]
  exact fun absolute => single (absolute.subset (by decide))

end Path

namespace Loader

-- A class without members, in a file of its own.
def plainClass : List UInt8 :=
  [0xca, 0xfe, 0xba, 0xbe, 0, 0, 0, 52, 0, 3, 7, 0, 2, 1, 0, 1, 65, 0, 33, 0, 1, 0, 0, 0, 0, 0, 0, 0, 0, 0, 0]

def stored : FileTree := { entries := [(["A.class"], .file plainClass)] }

theorem resolve_root (t : FileTree) (root : t.workingDirectory = []) :
    t.resolve "A.class" = t.walk FileTree.linkLimit [] ["A.class"] := by
  have legal : FileTree.isPath "A.class" = true := by
    rw [FileTree.isPath, String.contains_char_eq]
    decide
  rw [FileTree.resolve, if_pos legal, Path.names_single _ (by decide), FileTree.origin,
    Path.is_absolute_single _ (by decide), root]
  rfl

def collected : Collection :=
  { artifacts := [{ uri := "A.class", length := 31, isTarget := true }], sources := [⟨"A.class", plainClass⟩] }

theorem of_input_stored [Libraries] : Collection.ofInput stored "A.class" = .ok collected := by
  have found : stored.resolve "A.class" = .found ["A.class"] (.file plainClass) := by
    rw [resolve_root stored rfl, FileTree.walk]
    change stored.walk FileTree.linkLimit ["A.class"] [] = _
    rw [FileTree.walk]
    rfl
  have kind : Path.extension? "A.class" = some "class" := by
    rw [Path.extension?, Path.fileName?, Path.parts, Path.names_single _ (by decide)]
    decide +kernel
  rw [Collection.ofInput, FileTree.has, FileTree.isDirectory, found]
  simp only [Bool.not_true, Bool.false_eq_true, if_false]
  rw [Collection.addFile, kind]
  simp only [Collection.addClassFile, FileTree.read?, found]
  rfl

theorem of_input_empty [Libraries] : Collection.ofInput .empty "A.class" = .error
    (.inputNotFound "A.class") := by
  have missing : FileTree.empty.resolve "A.class" = .missing ["A.class"] := by
    rw [resolve_root .empty rfl, FileTree.walk]
    decide
  rw [Collection.ofInput, FileTree.has, missing]
  rfl

theorem scan_empty [Libraries] (l : Loader) (given : l.input = some "A.class") :
    l.scan .empty = ({ l with program := l.cleared }, .error (.inputNotFound "A.class")) := by
  rw [scan, given]
  dsimp only
  rw [Program.scan, of_input_empty]
  rfl

-- Until a scan has succeeded the program is the new one, and launches are refused. After that the loader
-- gives an account of the last scan that succeeded, and its classes are those of a program that was empty
-- before. As long as no scan has failed since, the program is what launches have made of it, and if no
-- closure drops a class the account is of live classes. After a failure the program is empty, whatever is
-- launched, and the account is of live classes only if there are none in it. A scan that fails empties the
-- program wherever a scan succeeded before, and changes nothing otherwise.
theorem account_of_scans [Libraries] (settings : Settings) (calls : List LoaderCall) :
    let start := new settings
    let l := start.performAll calls
    (start.NoneSucceeds calls ∨ ∃ before files after result,
      calls = before ++ .scan files :: after ∧ start.LastScan before files after result) ∧
    (start.NoneSucceeds calls → l.scanned = none ∧ l.program = .new settings ∧
      ∀ files, l.launch files = ⟨l, files, [], .error .notScanned⟩) ∧
    (∀ before files after result, calls = before ++ .scan files :: after →
      start.LastScan before files after result →
      let held := launched (start.performAll before).pipeline result.program after
      l.scanned = some result.output ∧ result.Answers ∧
        if after.any LoaderCall.isScan then l.program = held.clear ∧ (l.Coherent ↔ result.output.classes = [])
        else l.program = held ∧ ((∀ pass, .addPass pass ∈ calls → pass.DropsNoClass) → l.Coherent)) ∧
    ∀ files, (l.scan files).2.isOk = false →
      (l.scan files).1 = { l with program := if l.scanned.isSome then l.program.clear else l.program } := by
  intro start l
  refine ⟨start.last_scan_of_calls calls, fun none => ?_, ?_, fun files failed => ?_⟩
  · obtain ⟨unscanned, same⟩ := start.perform_all_unscanned calls rfl none
    refine ⟨unscanned, same, fun files => ?_⟩
    rw [launch, show l.scanned = .none from unscanned]
    rfl
  · rintro before files after result rfl last
    obtain ⟨account, _, held⟩ := last.holds rfl
    refine ⟨account, last.answers, ?_⟩
    cases failed : after.any LoaderCall.isScan with
    | true =>
        rw [failed] at held
        exact ⟨held, last.coherent_iff rfl failed⟩
    | false =>
        rw [failed] at held
        exact ⟨held, last.coherent rfl failed fun _ listed => absurd listed List.not_mem_nil⟩
  · apply l.scan_clears files failed
    intro scanned
    rcases start.last_scan_of_calls calls with none | ⟨before, files, after, result, rfl, last⟩
    · rw [show l.scanned = .none from (start.perform_all_unscanned calls rfl none).1] at scanned
      cases scanned
    · exact (last.holds rfl).2.1

theorem account_of_scans_launched :
    let before : List LoaderCall := [.setInput "A.class", .addPass .deadCodeRemover]
    let l := (new {}).performAll (before ++ .scan stored :: [.launch stored])
    (∀ files, ((new {}).performAll before).launch files =
      ⟨(new {}).performAll before, files, [], .error .notScanned⟩) ∧
    (∃ output, l.scanned = some output ∧ output.classes = [⟨1⟩]) ∧ l.Coherent ∧
      (l.scan .empty).1 = { l with program := l.program.clear } := by
  intro before l
  obtain ⟨_, refused, _, _⟩ := account_of_scans {} before
  obtain ⟨_, _, held, fails⟩ := account_of_scans {} (before ++ .scan stored :: [.launch stored])
  have last : (new {}).LastScan before stored [.launch stored]
      (Scanned.ofCollection (Program.new {}).clear collected).value :=
    ⟨⟨"A.class", collected, rfl, of_input_stored, rfl⟩, rfl, trivial⟩
  obtain ⟨account, _, coherent⟩ := held before stored [.launch stored] _ rfl last
  have given : l.input = some "A.class" := by
    change ((((new {}).performAll before).scan stored).1.perform (.launch stored)).input = some "A.class"
    rw [scan_collected _ stored "A.class" collected rfl of_input_stored, launch_of_scanned _ stored _ rfl]
    rfl
  have failed := fails .empty (by rw [scan_empty l given]; rfl)
  rw [show l.scanned = _ from account] at failed
  refine ⟨(refused ⟨rfl, rfl, trivial⟩).2.2, ⟨_, account, by decide +kernel⟩, coherent.2 ?_, ?_⟩
  · intro pass added
    simp only [before, List.cons_append, List.nil_append, List.mem_cons, LoaderCall.addPass.injEq, reduceCtorEq,
      List.not_mem_nil, or_false, false_or] at added
    rw [added]
    exact trivial
  · rw [failed, show l.scanned = _ from account]
    rfl

-- A scan succeeds, and the file is gone at the next one. The account is still of its class, and the program
-- has none.
theorem rescan_incoherent :
    let l := (new {}).performAll [.setInput "A.class", .scan stored]
    let failed := l.perform (.scan .empty)
    (l.scan .empty).2 = .error (.inputNotFound "A.class") ∧ l.Coherent ∧ failed.scanned = l.scanned ∧
      failed.program ≠ l.program ∧ ¬failed.Coherent := by
  intro l failed
  let result := (Scanned.ofCollection (Program.new {}).clear collected).value
  have classes : result.output.classes = [⟨1⟩] ∧ result.program.classIds = [⟨1⟩] := by decide +kernel
  have scanned : l = { new {} with
      input := some "A.class", program := result.program, scanned := some result.output } :=
    scan_collected ((new {}).setInput "A.class") stored "A.class" collected rfl of_input_stored
  have missing := scan_empty l (by rw [scanned])
  have cleared : failed = { l with program := l.program.clear } := by
    rw [show failed = (l.scan .empty).1 from rfl, missing, cleared, scanned]
    rfl
  refine ⟨by rw [missing], ?_, by rw [cleared], ?_, ?_⟩
  · intro output account id listed
    rw [scanned] at account ⊢
    cases account
    rw [classes.1] at listed
    rwa [classes.2]
  · intro same
    have ids := congrArg Program.classIds same
    rw [cleared, scanned] at ids
    cases ids.trans classes.2
  · intro coherent
    rw [cleared, scanned] at coherent
    have live := coherent result.output rfl ⟨1⟩ (by rw [classes.1]; decide)
    exact absurd live List.not_mem_nil

end Loader

end JvmEdit
