import JvmEdit.Libraries.Standard
import JvmEdit.Proofs.Pass.Removers
import JvmEdit.Proofs.References.Ready
set_option autoImplicit false

namespace JvmEdit

namespace Program

-- The method that a use comes to: one of the class it names, or else of the first class to have one
-- among those that the class inherits from, in the order given.
def callee? (p : Program) (order : ClassId → List ClassId) (u : MethodUse) : Option MethodId :=
  (p.findClass? u.owner).bind fun owner => p.methodAlong? u.name u.descriptor (owner :: order owner)

-- What was taken out of the one program to make the other is not missed: the methods that stayed are
-- as they were but for records of calls, classes inherit as they did, and whatever still names a method
-- finds the live method that it found before, in whatever order inherited classes are searched.
structure KeepsCallees (p q : Program) : Prop where
  methods : ∀ id m', q.method? id = some m' → ∃ m, p.method? id = some m ∧ m'.bare = m.bare
  links : SameLinks p q
  ancestors : ∀ c, q.ancestors c = p.ancestors c
  callees : ∀ order u, q.UsesMethod u → q.callee? order u = p.callee? order u
  live : ∀ order u id, q.callee? order u = some id → (q.method? id).isSome

theorem method_in?_called (p : Program) (indexed : p.Indexed) (call : Call) (owner : ClassId)
    (target : MethodId) (plain : Operand.Plain (.call call)) (loaded : p.findClass? call.owner = some owner)
    (found : p.findMethodKey? call.key = some target) :
    p.methodIn? call.name call.descriptor owner = some target := by
  have holder : p.className? owner = some call.owner := (indexed.classNames call.owner owner).mp loaded
  obtain ⟨m, c, live, liveOwner, sameKey⟩ :=
    method_key_live p target _ ((indexed.methods.inverse _ target).mp found)
  have named : p.className? m.owner = some c.name := congrArg (Option.map _) liveOwner
  obtain ⟨sameOwner, sameName, sameDescriptor⟩ := Key.method_injective _ _ _ _ _ _ plain.1
    (indexed.plain_owner p m.owner _ named) plain.2 (indexed.plain_method_name p target m live) sameKey
  have owns : owner = m.owner := by
    rw [← sameOwner] at named
    exact Table.inverse_unique _ _ indexed.classNames _ owner m.owner holder named
  rw [method_in?_iff p indexed, methodNaming?, live, owns, sameName, sameDescriptor]
  rfl

section Trimmed

variable (p q : Program) (trimmed : p.Trimmed (.ofProgram p) q)

include trimmed

theorem method_naming?_trimmed (id : MethodId) (live : (q.method? id).isSome) :
    q.methodNaming? id = p.methodNaming? id := by
  obtain ⟨m', liveNow⟩ := Option.isSome_iff_exists.mp live
  obtain ⟨m, liveBefore, same⟩ := trimmed.methods id m' liveNow
  have names : m'.bare.naming = m.bare.naming := congrArg Method.naming same
  rw [methodNaming?, methodNaming?, liveNow, liveBefore]
  exact congrArg some names

theorem method_in?_trimmed (indexed : p.Indexed) (name descriptor : String) (c : ClassId)
    (stays : ∀ id, p.methodIn? name descriptor c = some id → (q.method? id).isSome) :
    q.methodIn? name descriptor c = p.methodIn? name descriptor c := by
  apply Option.ext
  intro id
  have now := q.method_in?_iff trimmed.indexed name descriptor c id
  have before := p.method_in?_iff indexed name descriptor c id
  constructor
  · intro found
    have named := now.mp found
    have live : (q.method? id).isSome := by
      rw [methodNaming?] at named
      exact Option.isSome_of_eq_some named ▸ (Option.isSome_map ..).symm
    rw [method_naming?_trimmed p q trimmed id live] at named
    exact before.mpr named
  · intro found
    have named := before.mp found
    rw [← method_naming?_trimmed p q trimmed id (stays id found)] at named
    exact now.mpr named

theorem method_in?_hidden (indexed : p.Indexed) (u : MethodUse)
    (hidden : (HiddenUses.ofProgram p).Hides u) (c : ClassId) :
    q.methodIn? u.name u.descriptor c = p.methodIn? u.name u.descriptor c := by
  apply method_in?_trimmed p q trimmed indexed
  intro id found
  have named := (p.method_in?_iff indexed u.name u.descriptor c id).mp found
  obtain ⟨m, live, isNamed⟩ := Option.map_eq_some_iff.mp named
  have name : m.name = u.name := congrArg MethodNaming.name isNamed
  have descriptor : m.descriptor = u.descriptor := congrArg MethodNaming.descriptor isNamed
  apply trimmed.spared id m live
  rw [HiddenUses.hasMethod, List.contains_iff_mem, name, descriptor]
  exact hidden

theorem live_called (coded : p.Coded) (complete : p.Complete) (id : MethodId) (m' m : Method)
    (i : Instruction) (target : MethodId) (live : q.method? id = some m')
    (before : p.method? id = some m) (member : i ∈ m.code.toList)
    (named : p.lookup? (some m.owner) i.operand = some (.method target)) :
    (q.method? target).isSome := by
  have leads : p.target? ⟨id, i.id⟩ = some (.method target) := by
    have found := Stream.get?_of_mem m.code i (coded id m before).unique member
    rw [target?, before, Option.bind_some, found]
    exact named
  have held := trimmed.calls target ⟨id, i.id⟩ (Option.isSome_of_eq_some live) (complete _ _ leads)
  obtain ⟨called, liveTarget, _⟩ := holds_live q target _ held
  exact Option.isSome_of_eq_some liveTarget

theorem method_along?_used (bound : p.Bound) (complete : p.Complete) (u : MethodUse)
    (uses : q.UsesMethod u) (owner : ClassId) (loaded : p.findClass? u.owner = some owner)
    (order : List ClassId) : q.methodAlong? u.name u.descriptor (owner :: order) =
      p.methodAlong? u.name u.descriptor (owner :: order) := by
  have ofHidden : (HiddenUses.ofProgram p).Hides u → q.methodAlong? u.name u.descriptor (owner :: order) =
      p.methodAlong? u.name u.descriptor (owner :: order) := by
    intro hidden
    have searched : q.methodIn? u.name u.descriptor = p.methodIn? u.name u.descriptor :=
      funext fun c => method_in?_hidden p q trimmed bound.indexed u hidden c
    rw [methodAlong?, searched, methodAlong?]
  cases uses with
  | bootstrap id c' b value live member part names =>
      have rows := trimmed.bootstraps id
      rw [live] at rows
      obtain ⟨c, liveBefore, same⟩ := Option.map_eq_some_iff.mp rows.symm
      replace member : b ∈ c.bootstrapMethods := same ▸ member
      exact ofHidden (HiddenUses.hides_of_bootstrap p id c b value u liveBefore member part names)
  | code id m' i live member names =>
      obtain ⟨m, liveBefore, same⟩ := trimmed.methods id m' live
      have sameCode : m'.code = m.code := (congrArg Method.code same :)
      rw [sameCode] at member
      rcases HiddenUses.hides_or_names p id m i u liveBefore member names with hidden | direct
      · exact ofHidden hidden
      · obtain ⟨call, target, isCall, isUse, named, found⟩ := direct
        subst isUse
        have plain : i.operand.Plain := (bound.coded id m liveBefore).plain i member
        rw [isCall] at plain
        have has := method_in?_called p bound.indexed call owner target plain loaded found
        have stays := live_called p q trimmed bound.coded complete id m' m i target live liveBefore
          member named
        have hasNow := method_in?_trimmed p q trimmed bound.indexed call.name call.descriptor owner
          fun id other => by cases has.symm.trans other; exact stays
        simp only [methodAlong?, List.findSome?_cons, hasNow, has]

theorem keeps_callees_trimmed (bound : p.Bound) (complete : p.Complete) : p.KeepsCallees q where
  methods := trimmed.methods
  links := trimmed.links
  ancestors := ancestors_same_links p q trimmed.links
  callees := by
    intro order u uses
    rw [callee?, trimmed.links.find_class, callee?]
    cases loaded : p.findClass? u.owner with
    | none => rfl
    | some owner => exact method_along?_used p q trimmed bound complete u uses owner loaded (order owner)
  live := by
    intro order u id found
    obtain ⟨owner, _, along⟩ := Option.bind_eq_some_iff.mp found
    obtain ⟨c, _, has⟩ := List.exists_of_findSome?_eq_some along
    obtain ⟨m, live, _⟩ := Option.map_eq_some_iff.mp
      ((q.method_in?_iff trimmed.indexed u.name u.descriptor c id).mp has)
    exact Option.isSome_of_eq_some live

end Trimmed

end Program

-- A fresh remover of methods runs to its end, and nothing that is left misses a method: whatever names
-- one finds what it found before the run.
theorem Pass.keeps_callees_run [Libraries] (p : Program) (bound : p.Bound) (complete : p.Complete)
    (pass : Pass) (removes : pass.RemovesMethods none) (c : PassContext) (start : c.program = p) :
    Yields pass.run c fun _ after => p.KeepsCallees after.program := by
  have run := Pass.trimmed_run p pass c bound.indexed removes start
  refine yields_mono _ c _ _ run ?_
  intro _ after trimmed
  exact Program.keeps_callees_trimmed p after.program trimmed bound complete

namespace Session

-- A class with three methods, and a subclass that calls one of them under its own name and one under
-- the name of the superclass.
def inheriting : List SessionAction :=
  let header (name superName : String) : ClassEvent :=
    .header ⟨name, some superName, [], none, default, 52, [], []⟩
  let method (name descriptor : String) : ClassEvent :=
    .method ⟨name, descriptor, none, .staticFlag, [], []⟩
  [.openBuilder, .visit 0 (header "Base" "java/lang/Object"), .visit 0 (method "inherited" "()V"),
    .visit 0 (method "named" "()V"), .visit 0 (method "spare" "()V"), .visit 0 .classEnd,
    .visit 0 (header "Child" "Base"), .visit 0 (method "main" "([Ljava/lang/String;)V"),
    .visit 0 (.instruction 184 (.call ⟨"Child", "inherited", "()V", false, .static⟩)),
    .visit 0 (.instruction 184 (.call ⟨"Base", "named", "()V", false, .static⟩)),
    .visit 0 (.instruction 177 .simple), .visit 0 .classEnd]

-- The method that nothing calls goes, and both calls find their method.
theorem keeps_callees_run_inheriting :
    let p := ready {} inheriting
    let c : PassContext := { pass := "remover", program := p }
    let pass := Pass.unusedMethodRemover none
    (p.Bound ∧ p.Complete ∧ pass.RemovesMethods none ∧ c.program = p) ∧
      Yields pass.run c (fun _ after => p.KeepsCallees after.program) ∧
      (pass.run.run.run c).2.program.methodIds = [⟨2⟩, ⟨3⟩, ⟨6⟩] ∧
      (pass.run.run.run c).2.program.callee? (fun c => (p.ancestors c).toList)
        ⟨"Child", "inherited", "()V"⟩ = some ⟨2⟩ := by
  intro p c pass
  obtain ⟨bound, complete⟩ := bound_complete_ready {} inheriting (by decide)
  have removes : pass.RemovesMethods none := .unused none
  exact ⟨⟨bound, complete, removes, rfl⟩, Pass.keeps_callees_run p bound complete pass removes c rfl,
    by decide +kernel, by decide +kernel⟩

-- A class whose code reads a field through a handle under the name of a method that nothing calls.
def misnamed : List SessionAction :=
  let method (name descriptor : String) : ClassEvent :=
    .method ⟨name, descriptor, none, .staticFlag, [], []⟩
  [.openBuilder, .visit 0 (.header ⟨"A", some "java/lang/Object", [], none, default, 52, [], []⟩),
    .visit 0 (method "helper" "()V"), .visit 0 (method "main" "([Ljava/lang/String;)V"),
    .visit 0 (.instruction 18 (.constant (.methodHandle 2 "A" "helper" "()V" false))),
    .visit 0 (.instruction 87 .simple), .visit 0 (.instruction 177 .simple), .visit 0 .classEnd]

-- A handle that reads a field keeps no method: the one of its name and descriptor goes.
theorem field_handle_misnamed :
    let p := ready {} misnamed
    let c : PassContext := { pass := "remover", program := p }
    let ran := (Pass.unusedMethodRemover none).run.run.run c
    let q := ran.2.program
    (p.ExactHierarchy ∧ p.Bound ∧ p.Complete ∧ c.program = p ∧ ran.1.isOk = true) ∧
      (q.method? ⟨3⟩).map (fun m => m.code.toList.map (·.operand)) =
        some [.constant (.methodHandle 2 "A" "helper" "()V" false), .simple, .simple] ∧
      p.callee? (fun c => (p.ancestors c).toList) ⟨"A", "helper", "()V"⟩ = some ⟨2⟩ ∧
      q.callee? (fun c => (q.ancestors c).toList) ⟨"A", "helper", "()V"⟩ = none := by
  intro p c ran q
  have plain : ∀ action ∈ misnamed, action.PlainLoad := by decide
  have legal := class_names_legal_of_rows ((start {}).run misnamed).program (by decide)
  obtain ⟨bound, complete⟩ := bound_complete_ready {} misnamed plain
  have linked : p.ExactHierarchy := exact_hierarchy_ready {} misnamed plain legal
  exact ⟨⟨linked, bound, complete, rfl, by decide +kernel⟩, by decide +kernel, by decide +kernel,
    by decide +kernel⟩

end Session

end JvmEdit
