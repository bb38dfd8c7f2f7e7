import JvmEdit.Libraries.Standard
import JvmEdit.Proofs.Flow.Moves
import JvmEdit.Proofs.Pass.Folding
set_option autoImplicit false

namespace JvmEdit

namespace Inliner

open JvmEdit.Flow (Cell Moment Pair Completes EndsWith)

-- What was last stored into the field came by a store that names it otherwise than by its class and its name.
def Aliased (code : List Instruction) (cell : Cell) (owner name : String) (last : Moment) : Prop :=
  ∃ (position : Nat) (i : Instruction) (use : FieldUse), last.writer = some position ∧
    code[position]? = some i ∧ i.operand = .field use ∧ cell.reached use ∧
    ¬(use.owner = owner ∧ use.name = name)

-- A field that had no value and took one from the initialiser of its class.
structure Inlined (p q : Program) (x : FieldId) (f : Field) (value : Constant) (owner : String)
    (id : MethodId) (m m' : Method) (n : Nat) (push put : Instruction) : Prop where
  field : p.field? x = some f
  className : p.className? f.owner = some owner
  constant : f.access.isStatic = true ∧ f.access.isFinal = true
  initializer : p.methodByName? f.owner "<clinit>" = some id
  before : p.method? id = some m
  after : q.method? id = some m'
  pair : Pair m.code.toList n push put value
  -- The store is the one instruction of the program that names the field.
  alone : ∀ ref, p.target? ref = some (.field x) ↔ ref = ⟨id, put.id⟩
  part : m'.code.toList.Sublist m.code.toList
  gone : push ∉ m'.code.toList ∧ put ∉ m'.code.toList
  ranges : m'.tryRanges = m.tryRanges

theorem inlined_of_justified {p q : Program} {folds : List Fold} (folded : Folded p folds q) {d : Fold}
    (among : d ∈ folds) {f : Field} {owner : String} {m : Method} {n : Nat} {push put : Instruction}
    (justified : Justified p d f owner m n push put) :
    ∃ m', Inlined p q d.field f d.store.value owner d.initializer m m' n push put := by
  obtain ⟨use, operand, opcode, _, _, pushed, isPush, isPut⟩ := store?_eq_some justified.store
  have row := folded.bodies d.initializer
  rw [justified.body, Option.map_some] at row
  obtain ⟨m', after, source⟩ := Option.map_eq_some_iff.mp row
  simp only [Method.source, Prod.mk.injEq] at source
  obtain ⟨_, code, ranges, _⟩ := source
  have cut : ∀ i ∈ m'.code.toList, i.id ∉ [d.store.push, d.store.put] := by
    intro i present isCut
    rw [code, left, Stream.to_list_retain, List.mem_filter, Bool.not_eq_true', List.any_eq_false] at present
    simpa [isCut] using present.2 d among
  refine ⟨m', justified.field, justified.className, ?_, justified.initializer, justified.body, after,
    ⟨justified.first, justified.second, loaded?_of_pushed? pushed, opcode, use, operand⟩, justified.alone,
    ?_, ⟨?_, ?_⟩, ranges⟩
  · have foldable := justified.foldable
    simp only [isFoldable, Bool.and_eq_true] at foldable
    exact foldable.1.1.1
  · rw [code]
    exact List.filter_sublist
  · intro present
    exact cut push present (by simp [isPush])
  · intro present
    exact cut put present (by simp [isPut])

section Law

variable {p q : Program} {x : FieldId} {f : Field} {value : Constant} {owner : String} {id : MethodId}
  {m m' : Method} {n : Nat} {push put : Instruction} (bound : p.Bound)
  (inlined : Inlined p q x f value owner id m m' n push put)

include bound inlined

theorem Inlined.own_store {i : Instruction} (member : i ∈ m.code.toList) {use : FieldUse}
    (operand : i.operand = .field use) (own : use.owner = owner ∧ use.name = f.name) : i = put := by
  have fits := bound.coded id m inlined.before
  have found : p.findFieldKey? use.key = some x := by
    rw [FieldUse.key, own.1, own.2]
    exact (bound.indexed.find_field?_iff p x owner f.name).mpr ⟨f, inlined.field, inlined.className, rfl⟩
  have names := Program.target?_of_key fits inlined.before member operand found
  have same := congrArg InsnRef.insn ((inlined.alone _).mp names)
  exact List.inj_on_of_nodup_map fits.unique member (List.mem_of_getElem? inlined.pair.second) same

theorem Inlined.before_runs {reached : FieldUse → Prop} {default : Datum} {last : Moment}
    (completes : Completes m.code.toList m.tryRanges ⟨f.descriptor, reached⟩ default last) :
    (last.writer = none ∧ last.held = default) ∨
      (last.writer = some (n + 1) ∧ last.held = (Datum.constant value).narrowed f.descriptor) ∨
      Aliased m.code.toList ⟨f.descriptor, reached⟩ owner f.name last := by
  cases Flow.stems_of_completes completes with
  | unstored none same => exact .inl ⟨none, same⟩
  | @stored position i writer here stores =>
      right
      obtain ⟨_, use, operand, comes⟩ := stores
      by_cases own : use.owner = owner ∧ use.name = f.name
      · left
        have isPut := inlined.own_store bound (List.mem_of_getElem? here) operand own
        have distinct := (bound.coded id m inlined.before).unique.of_map
        have inside := (List.getElem?_eq_some_iff.mp here).1
        obtain rfl : position = n + 1 :=
          (List.getElem?_inj inside distinct).mp (here.trans (isPut ▸ inlined.pair.second.symm))
        exact ⟨writer, inlined.pair.held_of_writer completes writer⟩
      · exact .inr ⟨position, i, use, writer, here, operand, comes, own⟩

theorem Inlined.after_runs {reached : FieldUse → Prop} {start : Datum} {last : Moment}
    (completes : Completes m'.code.toList m'.tryRanges ⟨f.descriptor, reached⟩ start last) :
    (last.writer = none ∧ last.held = start) ∨
      Aliased m'.code.toList ⟨f.descriptor, reached⟩ owner f.name last := by
  cases Flow.stems_of_completes completes with
  | unstored none same => exact .inl ⟨none, same⟩
  | @stored position i writer here stores =>
      right
      obtain ⟨_, use, operand, comes⟩ := stores
      refine ⟨position, i, use, writer, here, operand, comes, fun own => ?_⟩
      have present := List.mem_of_getElem? here
      have isPut := inlined.own_store bound (inlined.part.subset present) operand own
      exact inlined.gone.2 (isPut ▸ present)

theorem Inlined.ends_with_iff {reached : FieldUse → Prop}
    (plain : ∀ use, reached use → use.owner = owner ∧ use.name = f.name) (default : Datum) :
    EndsWith m.code.toList m.tryRanges ⟨f.descriptor, reached⟩ default
        ((Datum.constant value).narrowed f.descriptor) ↔
      default = (Datum.constant value).narrowed f.descriptor ∨
        ∀ last, Completes m.code.toList m.tryRanges ⟨f.descriptor, reached⟩ default last →
          last.writer = some (n + 1) := by
  have unaliased : ∀ last, ¬Aliased m.code.toList ⟨f.descriptor, reached⟩ owner f.name last := by
    rintro last ⟨_, _, use, _, _, _, comes, other⟩
    exact other (plain use comes)
  constructor
  · intro ends
    by_cases same : default = (Datum.constant value).narrowed f.descriptor
    · exact .inl same
    · right
      intro last completes
      rcases inlined.before_runs bound completes with ⟨_, held⟩ | ⟨writer, _⟩ | aliased
      · exact absurd (held.symm.trans (ends last completes)) same
      · exact writer
      · exact absurd aliased (unaliased last)
  · intro either last completes
    rcases inlined.before_runs bound completes with ⟨none, held⟩ | ⟨_, held⟩ | aliased
    · rcases either with same | stored
      · exact held.trans same
      · rw [stored last completes] at none
        cases none
    · exact held
    · exact absurd aliased (unaliased last)

end Law

section Run

variable (c : PassContext)

-- What holds once some classes are done: each fold took a store out of the initialiser of one of them.
structure Progress (done : List Owner) (pass : Pass) (now : PassContext) : Prop where
  same : pass = .staticFieldInliner
  folds : ∃ folds, Folded c.program folds now.program ∧ ∀ d ∈ folds, ∃ cls, Owner.class cls ∈ done ∧
    c.program.methodByName? cls "<clinit>" = some d.initializer

theorem Progress.skip {done : List Owner} {pass : Pass} {now : PassContext} (progress : Progress c done pass now)
    (owner : Owner) : Progress c (done ++ [owner]) pass now := by
  obtain ⟨same, folds, folded, from'⟩ := progress
  refine ⟨same, folds, folded, fun d among => ?_⟩
  obtain ⟨cls, member, initializer⟩ := from' d among
  exact ⟨cls, List.mem_append_left _ member, initializer⟩

theorem Progress.visit [Libraries] (bound : c.program.Bound) (complete : c.program.Complete)
    {done rest : List Owner} {pass : Pass} {now : PassContext} {owner : Owner} {node : Node}
    (listed : done ++ owner :: rest = NodeKind.class.owners c.program) (progress : Progress c done pass now)
    (one : NodeKind.class.expand now.program owner = [node]) :
    Yields (pass.visit node) now (Progress c (done ++ [owner])) := by
  obtain ⟨same, folds, folded, from'⟩ := progress
  cases same
  cases owner with
  | field id => cases one
  | method id =>
      simp only [NodeKind.expand, NodeKind.methodNodes] at one
      split at one <;> cases one
  | «class» cls =>
      rw [NodeKind.expand] at one
      split at one
      case isFalse => cases one
      case isTrue =>
        cases one
        -- A class is listed once, so its initialiser has not been visited before.
        have new : Owner.class cls ∉ done := by
          have distinct : (NodeKind.class.owners c.program).Nodup :=
            (Table.keys_nodup _ bound.indexed.classOrder).map fun _ _ same => by cases same; rfl
          rw [← listed] at distinct
          intro member
          exact (List.nodup_append.mp distinct).2.2 _ member _ List.mem_cons_self rfl
        have untouched : ∀ d ∈ folds, c.program.methodByName? cls "<clinit>" ≠ some d.initializer := by
          intro d among own
          obtain ⟨other, member, initializer⟩ := from' d among
          obtain ⟨m, live, owner⟩ := bound.indexed.method_by_name? initializer
          obtain ⟨m', live', owner'⟩ := bound.indexed.method_by_name? own
          cases live.symm.trans live'
          exact new (owner' ▸ owner ▸ member)
        apply yields_bind _ _ now _ _ (yields_visit bound complete cls now folded untouched)
        rintro _ after ⟨folds', folded', known⟩
        apply yields_pure _ after
        refine ⟨rfl, folds', folded', fun d among => ?_⟩
        rcases known d among with earlier | own
        · obtain ⟨other, member, initializer⟩ := from' d earlier
          exact ⟨other, List.mem_append_left _ member, initializer⟩
        · exact ⟨cls, List.mem_append_right _ (List.mem_singleton_self _), own⟩

theorem folded_run [Libraries] (bound : c.program.Bound) (complete : c.program.Complete) :
    Yields Pass.staticFieldInliner.run c fun _ after => ∃ folds, Folded c.program folds after.program := by
  apply Pass.yields_run_listed .staticFieldInliner c (Progress c)
    (fun _ after => ∃ folds, Folded c.program folds after.program) NodeKind.single_class
  · exact ⟨rfl, [], folded_nil c.program, fun _ among => by cases among⟩
  · intro done owner rest pass now _ progress _
    exact progress.skip c owner
  · intro done owner rest pass now node listed progress one
    exact progress.visit c bound complete listed one
  · intro pass after progress
    obtain ⟨rfl, folds, folded, _⟩ := progress
    exact yields_pure _ after _ ⟨folds, folded⟩

theorem Folded.inlined {p q : Program} {folds : List Fold} (folded : Folded p folds q) {x : FieldId}
    {f f' : Field} {value : Constant} (before : p.field? x = some f) (unset : f.value = none)
    (after : q.field? x = some f') (set' : f'.value = some value) :
    ∃ owner id m m' n push put, Inlined p q x f value owner id m m' n push put := by
  have among : ∃ d ∈ folds, d.field = x := by
    by_contra none
    push Not at none
    rw [folded.others x none, before, Option.some_inj] at after
    rw [← after, unset] at set'
    cases set'
  obtain ⟨d, member, rfl⟩ := among
  have values := folded.values d member
  rw [after, Option.map_some, Option.some_inj, set', Option.some_inj] at values
  obtain ⟨g, owner, m, n, push, put, justified⟩ := folded.justified d member
  cases before.symm.trans justified.field
  obtain ⟨m', inlined⟩ := inlined_of_justified folded member justified
  exact ⟨owner, d.initializer, m, m', n, push, put, values ▸ inlined⟩

-- A field that takes its value from a store has it at each normal end of a run that carried this store out last,
-- and its default where nothing was stored. Then no run of what is left of the initialiser changes it.
theorem inlined_run [Libraries] (bound : c.program.Bound) (complete : c.program.Complete) :
    Yields Pass.staticFieldInliner.run c fun _ after => ∀ x f f' value,
      c.program.field? x = some f → f.value = none → after.program.field? x = some f' →
        f'.value = some value → ∃ owner id m m' n push put,
          Inlined c.program after.program x f value owner id m m' n push put ∧ ∀ reached : FieldUse → Prop,
            let cell : Cell := ⟨f.descriptor, reached⟩
            let default := Datum.initial f.descriptor
            let given := (Datum.constant value).narrowed f.descriptor
            (∀ last, Completes m.code.toList m.tryRanges cell default last →
              (last.writer = none ∧ last.held = default) ∨ (last.writer = some (n + 1) ∧ last.held = given) ∨
                Aliased m.code.toList cell owner f.name last) ∧
            (∀ last, Completes m'.code.toList m'.tryRanges cell given last →
              (last.writer = none ∧ last.held = given) ∨ Aliased m'.code.toList cell owner f.name last) ∧
            ((∀ use, reached use → use.owner = owner ∧ use.name = f.name) →
              EndsWith m'.code.toList m'.tryRanges cell given given ∧
              (EndsWith m.code.toList m.tryRanges cell default given ↔ default = given ∨
                ∀ last, Completes m.code.toList m.tryRanges cell default last → last.writer = some (n + 1))) := by
  apply yields_mono _ c _ _ (folded_run c bound complete)
  rintro _ after ⟨folds, folded⟩ x f f' value before unset now isSet
  obtain ⟨owner, id, m, m', n, push, put, inlined⟩ := folded.inlined before unset now isSet
  refine ⟨owner, id, m, m', n, push, put, inlined, fun reached => ⟨?_, ?_, ?_⟩⟩
  · exact fun last completes => inlined.before_runs bound completes
  · exact fun last completes => inlined.after_runs bound completes
  · intro plain
    refine ⟨fun last completes => ?_, inlined.ends_with_iff bound plain _⟩
    rcases inlined.after_runs bound completes with ⟨_, held⟩ | ⟨_, _, use, _, _, _, comes, other⟩
    · exact held
    · exact absurd (plain use comes) other

end Run

end Inliner

namespace Session

open JvmEdit.Flow (Cell Moment Completes EndsWith)

-- A class with a static constant and an initialiser.
def limited (body : List ClassEvent) : List SessionAction :=
  [.openBuilder, .visit 0 (.header ⟨"A", some "java/lang/Object", [], none, default, 52, [], []⟩),
    .visit 0 (.field ⟨"LIMIT", "I", none, ⟨24⟩, none, []⟩),
    .visit 0 (.method ⟨"<clinit>", "()V", none, .staticFlag, [], []⟩)] ++ body.map (.visit 0) ++
  [.visit 0 .classEnd]

def storeLimit : List ClassEvent :=
  [.instruction .bipush (.int 42), .instruction .putStatic (.field ⟨"A", "LIMIT", "I", .write, true⟩)]

-- The constant is stored in any case, or only if a property is set.
def always : List SessionAction := limited (storeLimit ++ [.instruction .returnVoid .simple])

def debugOnly : List SessionAction :=
  limited ([.newLabel, .instruction .ldc (.constant (.string "debug")),
    .instruction .invokeStatic (.call ⟨"java/lang/Boolean", "getBoolean", "(Ljava/lang/String;)Z", false, .static⟩),
    .instruction .ifEq (.jump ⟨0⟩)] ++ storeLimit ++
    [.instruction .label (.label ⟨0⟩), .instruction .returnVoid .simple])

def inlinedIn [Libraries] (loads : List SessionAction) :
    Except (PassFailure × Pass) (Pass × Nat) × PassContext :=
  Pass.staticFieldInliner.run.run.run { pass := "static-field-inliner", program := ready {} loads }

-- The field, as its class and its name call it.
def limitCell : Cell := ⟨"I", fun use => use.owner = "A" ∧ use.name = "LIMIT"⟩

theorem inlined_run_always :
    let p := ready {} always
    let q := (inlinedIn always).2.program
    let f := (p.field? ⟨2⟩).getD default
    let f' := (q.field? ⟨2⟩).getD default
    let m := (p.method? ⟨3⟩).getD default
    let m' := (q.method? ⟨3⟩).getD default
    let limit : Datum := .constant (.int 42)
    (p.Bound ∧ p.Complete ∧ p.field? ⟨2⟩ = some f ∧ f.value = none ∧ q.field? ⟨2⟩ = some f' ∧
      f'.value = some (.int 42)) ∧
      (∃ n push put, Inliner.Inlined p q ⟨2⟩ f (.int 42) "A" ⟨3⟩ m m' n push put ∧
        EndsWith m'.code.toList m'.tryRanges limitCell limit limit) ∧
      Completes m.code.toList m.tryRanges limitCell (.initial "I") ⟨2, [], limit, some 1⟩ ∧
      Completes m'.code.toList m'.tryRanges limitCell limit ⟨0, [], limit, none⟩ := by
  intro p q f f' m m' limit
  obtain ⟨bound, complete⟩ := bound_complete_ready {} always (by decide)
  have before : p.field? ⟨2⟩ = some f := by decide +kernel
  have unset : f.value = none := by decide +kernel
  have now : q.field? ⟨2⟩ = some f' := by decide +kernel
  have isSet : f'.value = some (.int 42) := by decide +kernel
  refine ⟨⟨bound, complete, before, unset, now, isSet⟩, ?_, ?_, ?_⟩
  · obtain ⟨_, after, ran, promise⟩ := Inliner.inlined_run { pass := "static-field-inliner", program := p } bound
      complete
    have same : (inlinedIn always).2 = after := congrArg Prod.snd ran
    obtain ⟨_, _, _, left, n, push, put, inlined, law⟩ :=
      promise ⟨2⟩ f f' (.int 42) before unset (by rw [← same]; exact now) isSet
    have named : p.className? f.owner = some "A" := by decide +kernel
    have initializer : p.methodByName? f.owner "<clinit>" = some ⟨3⟩ := by decide +kernel
    have body : p.method? ⟨3⟩ = some m := by decide +kernel
    have body' : q.method? ⟨3⟩ = some m' := by decide +kernel
    have descriptor : f.descriptor = "I" := by decide +kernel
    have name : f.name = "LIMIT" := by decide +kernel
    cases named.symm.trans inlined.className
    cases initializer.symm.trans inlined.initializer
    cases body.symm.trans inlined.before
    rw [← same] at inlined
    have isLeft : m' = left := Option.some.inj (body'.symm.trans inlined.after)
    have ends := ((law limitCell.reached).2.2 fun use own => ⟨own.1, own.2.trans name.symm⟩).1
    rw [descriptor, ← isLeft] at ends
    rw [← isLeft] at inlined
    exact ⟨n, push, put, inlined, ends⟩
  · have code : m.code.toList = [⟨⟨4⟩, .bipush, .int 42⟩,
        ⟨⟨5⟩, .putStatic, .field ⟨"A", "LIMIT", "I", .write, true⟩⟩, ⟨⟨6⟩, .returnVoid, .simple⟩] := by
      decide +kernel
    rw [code]
    refine ⟨.tail (.tail .refl (.load rfl rfl (.next rfl rfl rfl))) (.store rfl ?_ (.next rfl rfl rfl)), _, rfl, rfl⟩
    exact ⟨rfl, _, rfl, rfl, rfl⟩
  · have code : m'.code.toList = [⟨⟨6⟩, .returnVoid, .simple⟩] := by decide +kernel
    rw [code]
    exact ⟨.refl, _, rfl, rfl⟩

-- The run that jumps over the store leaves the field at zero, and still the store is folded.
theorem debug_only_inlined :
    let p := ready {} debugOnly
    let q := (inlinedIn debugOnly).2.program
    let m := (p.method? ⟨3⟩).getD default
    (p.Bound ∧ p.Complete ∧ (inlinedIn debugOnly).1.isOk = true) ∧
      ((p.field? ⟨2⟩).map (·.value) = some none ∧
        (q.field? ⟨2⟩).map (·.value) = some (some (.int 42))) ∧
      (p.methodByName? ⟨1⟩ "<clinit>" = some ⟨3⟩ ∧ p.method? ⟨3⟩ = some m) ∧
      ¬EndsWith m.code.toList m.tryRanges limitCell (.initial "I")
        ((Datum.constant (.int 42)).narrowed "I") := by
  intro p q m
  obtain ⟨bound, complete⟩ := bound_complete_ready {} debugOnly (by decide)
  refine ⟨⟨bound, complete, by decide +kernel⟩, ⟨by decide +kernel, by decide +kernel⟩,
    ⟨by decide +kernel, by decide +kernel⟩, ?_⟩
  let code : List Instruction := [⟨⟨6⟩, .ldc, .constant (.string "debug")⟩,
    ⟨⟨7⟩, .invokeStatic, .call ⟨"java/lang/Boolean", "getBoolean", "(Ljava/lang/String;)Z", false, .static⟩⟩,
    ⟨⟨8⟩, .ifEq, .jump ⟨4⟩⟩, ⟨⟨9⟩, .bipush, .int 42⟩,
    ⟨⟨10⟩, .putStatic, .field ⟨"A", "LIMIT", "I", .write, true⟩⟩, ⟨⟨11⟩, .label, .label ⟨4⟩⟩,
    ⟨⟨12⟩, .returnVoid, .simple⟩]
  have isCode : m.code.toList = code := by decide +kernel
  rw [isCode]
  have plain : ∀ i : Instruction, i.opcode ≠ Opcode.putStatic → ¬limitCell.Stores i :=
    fun _ other stores => other stores.1
  have stands : Flow.Stands code ⟨4⟩ 5 := (Flow.lookup_iff_stands code ⟨4⟩ 5).mp (by decide +kernel)
  let zero : Datum := .initial "I"
  have asks : Flow.Advances code m.tryRanges limitCell ⟨0, [], zero, none⟩
      ⟨1, [.constant (.string "debug")], zero, none⟩ := .load rfl rfl (.next rfl rfl rfl)
  have answers : Flow.Advances code m.tryRanges limitCell ⟨1, [.constant (.string "debug")], zero, none⟩
      ⟨2, [.constant (.int 0)], zero, none⟩ := .other rfl rfl (plain _ (by decide)) (.next rfl rfl rfl)
  have jumps : Flow.Advances code m.tryRanges limitCell ⟨2, [.constant (.int 0)], zero, none⟩
      ⟨5, [], zero, none⟩ := .other rfl rfl (plain _ (by decide)) (.target rfl List.mem_cons_self stands)
  have marks : Flow.Advances code m.tryRanges limitCell ⟨5, [], zero, none⟩ ⟨6, [], zero, none⟩ :=
    .other rfl rfl (plain _ (by decide)) (.next rfl rfl rfl)
  intro ends
  have held := ends ⟨6, [], zero, none⟩
    ⟨(((Relation.ReflTransGen.refl.tail asks).tail answers).tail jumps).tail marks, _, rfl, rfl⟩
  exact absurd held (by decide)

end Session

end JvmEdit
