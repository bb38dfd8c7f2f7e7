import JvmEdit.Proofs.Flow.Storing
import JvmEdit.Proofs.Pass.Cutting
import JvmEdit.Proofs.Pass.Run
set_option autoImplicit false

namespace JvmEdit

namespace Program

theorem SameNames.method_by_name? {p q : Program} (same : SameNames p q) (owner : ClassId) (name : String) :
    q.methodByName? owner name = p.methodByName? owner name := by
  have named : q.methodNamed name = p.methodNamed name := by
    funext id
    have row := same.methods id
    rw [methodNaming?, methodNaming?] at row
    have names := congrArg (Option.any fun n : MethodNaming => decide (n.name = name)) row
    rwa [Option.any_map, Option.any_map] at names
  have row := same.classes owner
  rw [classNaming?, classNaming?] at row
  have lists := congrArg (Option.bind · fun n : ClassNaming => n.methods.find? (p.methodNamed name)) row
  rw [Option.bind_map, Option.bind_map] at lists
  rw [Program.methodByName?, Program.methodByName?, named]
  exact lists

theorem Indexed.method_by_name? {p : Program} (indexed : p.Indexed) {owner : ClassId} {name : String}
    {id : MethodId} (found : p.methodByName? owner name = some id) :
    ∃ m, p.method? id = some m ∧ m.owner = owner := by
  obtain ⟨c, live, listed⟩ := Option.bind_eq_some_iff.mp found
  exact ((p.index_exact_of_indexed indexed).methodLists owner c live).2 id |>.mp
    (List.mem_of_find?_eq_some listed)

theorem target?_of_key {p : Program} {id : MethodId} {m : Method} (fits : m.code.Fits)
    (body : p.method? id = some m) {i : Instruction} (member : i ∈ m.code.toList) {use : FieldUse}
    (operand : i.operand = .field use) {x : FieldId} (found : p.findFieldKey? use.key = some x) :
    p.target? ⟨id, i.id⟩ = some (.field x) := by
  rw [target?, body, Option.bind_some, m.code.get?_of_mem i fits.unique member, Option.bind_some, operand,
    lookup?_use, found]
  rfl

end Program

namespace Inliner

theorem loaded?_of_pushed? {i : Instruction} {value : Constant} (pushed : pushed? i = some value) :
    i.loaded? = some value := by
  rw [Instruction.loaded?]
  rw [pushed?] at pushed
  cases operand : i.operand with
  | simple =>
      rw [operand] at pushed
      obtain ⟨row, found, rfl⟩ := Option.map_eq_some_iff.mp pushed
      have small : ∀ row ∈ smallConstants, row.1.number? = some row.2 := by decide
      have same : row.1 = i.opcode := by simpa using List.find?_some found
      rw [← same]
      exact small row (List.mem_of_find?_eq_some found)
  | int value =>
      rw [operand] at pushed
      simpa using pushed
  | constant loaded =>
      rw [operand] at pushed
      cases loaded <;> exact pushed
  | label _ | var _ | increment _ _ | jump _ | switch _ _ | field _ | call _ | dynamicCall _ | type _
  | newArray _ | multiArray _ _ =>
      rw [operand] at pushed
      cases pushed

theorem is_reference_of_pushed? {i : Instruction} {value : Constant} (pushed : pushed? i = some value) :
    i.operand.isReference = false := by
  rw [pushed?] at pushed
  cases operand : i.operand with
  | simple | int _ => rfl
  | constant loaded =>
      rw [operand] at pushed
      cases loaded <;> first | rfl | cases pushed
  | label _ | var _ | increment _ _ | jump _ | switch _ _ | field _ | call _ | dynamicCall _ | type _
  | newArray _ | multiArray _ _ =>
      rw [operand] at pushed
      cases pushed

theorem store?_eq_some {owner : String} {push put : Instruction} {store : Store}
    (found : store? owner push put = some store) : ∃ use, put.operand = .field use ∧
      put.opcode = Opcode.putStatic ∧ use.owner = owner ∧ use.name = store.name ∧
      pushed? push = some store.value ∧ store.push = push.id ∧ store.put = put.id := by
  rw [store?] at found
  split at found
  · rename_i use operand
    obtain ⟨guards, found⟩ := Option.ite_none_right_eq_some.mp found
    obtain ⟨value, pushed, rfl⟩ := Option.map_eq_some_iff.mp found
    simp only [Bool.and_eq_true, decide_eq_true_eq] at guards
    exact ⟨use, operand, guards.1, guards.2, rfl, pushed, rfl, rfl⟩
  · cases found

theorem mem_stores {owner : String} {code : List Instruction} {store : Store}
    (member : store ∈ stores owner code) : ∃ (n : Nat) (push put : Instruction), code[n]? = some push ∧
      code[n + 1]? = some put ∧ store? owner push put = some store := by
  obtain ⟨⟨push, put⟩, paired, found⟩ := List.mem_filterMap.mp member
  obtain ⟨n, here⟩ := List.mem_iff_getElem?.mp paired
  obtain ⟨first, second⟩ := List.getElem?_zip_eq_some.mp here
  rw [List.getElem?_drop, Nat.add_comm] at second
  exact ⟨n, push, put, first, second, found⟩

-- A field with the store that its value came from.
structure Fold where
  field : FieldId
  initializer : MethodId
  store : Store
  deriving DecidableEq, Repr

-- What a body is without the instructions of the folds.
def left (folds : List Fold) (id : MethodId) (code : Stream) : Stream :=
  code.retain fun i => !folds.any fun d =>
    decide (d.initializer = id) && decide (i.id ∈ [d.store.push, d.store.put])

theorem left_of_apart {folds : List Fold} {id : MethodId} (code : Stream)
    (apart : ∀ d ∈ folds, d.initializer ≠ id) : left folds id code = code := by
  obtain ⟨rows⟩ := code
  rw [left, Stream.retain]
  congr 1
  rw [List.filter_eq_self]
  intro i _
  rw [Bool.not_eq_true', List.any_eq_false]
  intro d member
  simp [apart d member]

theorem left_append (folds : List Fold) (d : Fold) (id : MethodId) (code : Stream) :
    left (folds ++ [d]) id code = if d.initializer = id then
      (left folds id code).retain fun i => !decide (i.id ∈ [d.store.push, d.store.put])
    else left folds id code := by
  split
  · rename_i own
    rw [left, left, Stream.retain, Stream.retain, Stream.retain, List.filter_filter]
    congr 1
    apply List.filter_congr
    intro i _
    simp [own, Bool.and_comm]
  · rename_i other
    rw [left, left]
    simp [other]

theorem mem_left {folds : List Fold} {id : MethodId} {code : Stream} {i : Instruction}
    (member : i ∈ (left folds id code).toList) : i ∈ code.toList := by
  rw [left, Stream.to_list_retain] at member
  exact List.mem_of_mem_filter member

-- What a fold relies on: the store is the one instruction that names the field.
structure Justified (p : Program) (d : Fold) (f : Field) (owner : String) (m : Method) (n : Nat)
    (push put : Instruction) : Prop where
  field : p.field? d.field = some f
  className : p.className? f.owner = some owner
  initializer : p.methodByName? f.owner "<clinit>" = some d.initializer
  body : p.method? d.initializer = some m
  first : m.code.toList[n]? = some push
  second : m.code.toList[n + 1]? = some put
  store : store? owner push put = some d.store
  name : d.store.name = f.name
  foldable : isFoldable d.store.value f = true
  alone : ∀ ref, p.target? ref = some (.field d.field) ↔ ref = ⟨d.initializer, put.id⟩

theorem Justified.names {p q : Program} {d : Fold} {f : Field} {owner : String} {m : Method} {n : Nat}
    {push put : Instruction} (justified : Justified p d f owner m n push put)
    (unique : (m.code.toList.map (·.id)).Nodup) (found : q.findField? owner d.store.name = some d.field)
    {i : Instruction} (present : i ∈ m.code.toList) (isCut : i.id ∈ [d.store.push, d.store.put])
    (refers : i.operand.isReference = true) (context : ClassId) :
    q.lookup? (some context) i.operand = some (.field d.field) := by
  obtain ⟨use, operand, _, useOwner, useName, pushed, isPush, isPut⟩ := store?_eq_some justified.store
  rcases List.mem_cons.mp isCut with samePush | rest
  · have same : i = push := List.inj_on_of_nodup_map unique present (List.mem_of_getElem? justified.first)
      (samePush.trans isPush)
    rw [same, is_reference_of_pushed? pushed] at refers
    cases refers
  · have samePut := List.mem_singleton.mp rest
    have same : i = put := List.inj_on_of_nodup_map unique present (List.mem_of_getElem? justified.second)
      (samePut.trans isPut)
    have direct : q.findFieldKey? use.key = some d.field := by
      rw [FieldUse.key, useOwner, useName]
      exact found
    rw [same, operand, Program.lookup?_use, direct]
    rfl

-- A program after some folds.
structure Folded (p : Program) (folds : List Fold) (q : Program) : Prop where
  names : Program.SameNames p q
  others : ∀ x, (∀ d ∈ folds, d.field ≠ x) → q.field? x = p.field? x
  values : ∀ d ∈ folds, (q.field? d.field).map Field.value = some (some d.store.value)
  bodies : ∀ id, (q.method? id).map Method.source = (p.method? id).map fun m =>
    (m.kind, left folds id m.code, m.tryRanges, m.maxStack)
  justified : ∀ d ∈ folds, ∃ f owner m n push put, Justified p d f owner m n push put

theorem folded_nil (p : Program) : Folded p [] p where
  names := .refl p
  others _ _ := rfl
  values _ member := by cases member
  bodies id := by
    cases p.method? id with
    | none => rfl
    | some m =>
        rw [Option.map_some, Option.map_some, left_of_apart m.code fun _ member => by cases member]
        rfl
  justified _ member := by cases member

section Visit

variable {p q : Program} {folds : List Fold} {owner : String} {cls : ClassId} {id : MethodId} {m : Method}
  {store : Store} {x : FieldId} {g : Field} (bound : p.Bound) (complete : p.Complete)
  (named : p.className? cls = some owner) (initializer : p.methodByName? cls "<clinit>" = some id)
  (body : p.method? id = some m) (folded : Folded p folds q)
  (member : store ∈ stores owner m.code.toList) (found : q.findField? owner store.name = some x)
  (live : q.field? x = some g) (foldable : isFoldable store.value g = true)

include folded live foldable

theorem fresh_of_foldable : ∀ d ∈ folds, d.field ≠ x := by
  rintro d earlier rfl
  have value := folded.values d earlier
  rw [live, Option.map_some, Option.some_inj] at value
  simp [isFoldable, value] at foldable

include bound complete named initializer body member found

theorem justified_of_foldable :
    ∃ n push put, Justified p ⟨x, id, store⟩ g owner m n push put := by
  obtain ⟨n, push, put, first, second, isStore⟩ := mem_stores member
  obtain ⟨use, operand, _, useOwner, useName, _⟩ := store?_eq_some isStore
  have liveBefore : p.field? x = some g := by
    rw [← folded.others x (fresh_of_foldable folded live foldable), live]
  have foundBefore : p.findField? owner store.name = some x := by
    rw [Program.findField?, Program.findFieldKey?, ← folded.names.index]
    exact found
  obtain ⟨f, liveF, className, name⟩ :=
    (bound.indexed.find_field?_iff p x owner store.name).mp foundBefore
  cases liveBefore.symm.trans liveF
  have isOwner : g.owner = cls := by
    have holds := (bound.indexed.classNames owner g.owner).mpr className
    have holds' := (bound.indexed.classNames owner cls).mpr named
    exact Option.some.inj (holds.symm.trans holds')
  have putNames : p.target? ⟨id, put.id⟩ = some (.field x) := by
    apply Program.target?_of_key (bound.coded id m body) body (List.mem_of_getElem? second) operand
    rw [FieldUse.key, useOwner, useName]
    exact foundBefore
  have once : g.references.size = 1 := by
    simp only [isFoldable, Bool.and_eq_true, decide_eq_true_eq] at foldable
    exact foldable.1.2
  obtain ⟨only, isOnly⟩ := List.length_eq_one_iff.mp once
  have recorded : ∀ ref, p.target? ref = some (.field x) → ref = only := by
    intro ref names
    have holds := complete (.field x) ref names
    rw [Program.Holds, Program.records, liveBefore, Option.map_some, Option.getD_some,
      OrderedSet.mem_def, isOnly] at holds
    exact List.mem_singleton.mp holds
  refine ⟨n, push, put, liveBefore, className, isOwner ▸ initializer, body, first, second, isStore,
    name.symm, foldable, fun ref => ⟨fun names => ?_, fun same => same ▸ putNames⟩⟩
  rw [recorded ref names, recorded _ putNames]

theorem folded_append [Libraries] {mq : Method} {logged : Logged (Program × Nat)}
    (liveMethod : q.method? id = some mq)
    (done : q.deleteInstructions id [store.push, store.put] = .ok logged) :
    Folded p (folds ++ [⟨x, id, store⟩])
      (logged.value.1.updateField x fun f => { f with value := some store.value }) := by
  obtain ⟨n, push, put, justified⟩ :=
    justified_of_foldable bound complete named initializer body folded member found live foldable
  have fresh := fresh_of_foldable folded live foldable
  have row := folded.bodies id
  rw [liveMethod, body, Option.map_some, Option.map_some, Option.some_inj] at row
  simp only [Method.source, Prod.mk.injEq] at row
  obtain ⟨kind, code, ranges, limit⟩ := row
  have unique : (mq.code.toList.map (·.id)).Nodup := by
    rw [code]
    exact (bound.coded id m body).unique.sublist (List.filter_sublist.map _)
  obtain ⟨others, value⟩ := Program.fields_delete_instructions liveMethod done x (by
    intro i present isCut refers
    rw [code] at present
    exact justified.names (bound.coded id m body).unique found (mem_left present) isCut refers mq.owner)
  have sources := Program.sources_delete_instructions liveMethod done unique
  constructor
  · exact (folded.names.trans (Program.same_names_delete_instructions liveMethod done)).trans
      (Program.same_names_update_field _ x _ fun _ => rfl)
  · intro y apart
    have differs : x ≠ y := apart ⟨x, id, store⟩ (List.mem_append_right _ (List.mem_singleton_self _))
    rw [Program.field?_update_field, if_neg differs, others y differs]
    exact folded.others y fun d earlier => apart d (List.mem_append_left _ earlier)
  · intro d among
    rw [Program.field?_update_field]
    rcases List.mem_append.mp among with earlier | last
    · have differs := (fresh d earlier).symm
      rw [if_neg differs, others d.field differs]
      exact folded.values d earlier
    · cases List.mem_singleton.mp last
      rw [live, Option.map_some] at value
      obtain ⟨f, now, _⟩ := Option.map_eq_some_iff.mp value
      rw [if_pos rfl, now]
      rfl
  · intro other
    change (logged.value.1.method? other).map Method.source = _
    rw [sources, folded.bodies]
    by_cases same : id = other
    · rw [if_pos same, ← same, body, Option.map_some, left_append, if_pos rfl, code, kind, ranges, limit]
    · rw [if_neg same]
      congr 1
      funext m'
      rw [left_append, if_neg same]
  · intro d among
    rcases List.mem_append.mp among with earlier | last
    · exact folded.justified d earlier
    · cases List.mem_singleton.mp last
      exact ⟨g, owner, m, n, push, put, justified⟩

end Visit

section Runs

variable {p : Program} {owner : String} {cls : ClassId} {id : MethodId} {m : Method}
  (bound : p.Bound) (complete : p.Complete)

-- The folds that are known, and besides them only folds out of one initialiser.
def Extends (p : Program) (folds : List Fold) (id : MethodId) (q : Program) : Prop :=
  ∃ folds', Folded p folds' q ∧ ∀ d ∈ folds', d ∈ folds ∨ d.initializer = id

include bound complete

theorem yields_fold [Libraries] (named : p.className? cls = some owner)
    (initializer : p.methodByName? cls "<clinit>" = some id) (body : p.method? id = some m)
    {folds : List Fold} {store : Store} (member : store ∈ stores owner m.code.toList) (c : PassContext)
    (reached : Extends p folds id c.program) :
    Yields (fold owner id store) c fun _ after => Extends p folds id after.program := by
  obtain ⟨folds', folded, known⟩ := reached
  apply yields_get_bind
  cases found : c.program.findField? owner store.name with
  | none => exact yields_pure () c _ ⟨folds', folded, known⟩
  | some x =>
      dsimp only
      split
      · rename_i holds
        obtain ⟨present, foldable⟩ := (Option.any_eq_true_iff_get _ _).mp holds
        have live := (Option.some_get present).symm
        cases c.fieldTarget? x with
        | none => exact yields_pure () c _ ⟨folds', folded, known⟩
        | some target =>
            have row := folded.bodies id
            rw [body, Option.map_some] at row
            obtain ⟨mq, liveMethod, _⟩ := Option.map_eq_some_iff.mp row
            have done := Program.delete_instructions_eq c.program id [store.push, store.put] mq liveMethod
            have longer := folded_append bound complete named initializer body folded member found live
              foldable liveMethod done
            dsimp only
            apply yields_bind _ _ c fun _ now => Folded p (folds' ++ [⟨x, id, store⟩])
              (now.program.updateField x fun f => { f with value := some store.value })
            · apply Work.yields_edit
              · rw [done]
                rfl
              · exact longer
            · intro _ edited reached
              apply yields_bind _ _ edited fun _ now => Folded p (folds' ++ [⟨x, id, store⟩]) now.program
              · exact ⟨(), _, rfl, reached⟩
              · intro _ valued reached
                apply Work.yields_record
                intro _
                refine ⟨_, reached, ?_⟩
                intro d among
                rcases List.mem_append.mp among with earlier | last
                · exact known d earlier
                · exact .inr (List.mem_singleton.mp last ▸ rfl)
      · exact yields_pure () c _ ⟨folds', folded, known⟩

theorem yields_visit [Libraries] (cls : ClassId) {folds : List Fold} (c : PassContext)
    (folded : Folded p folds c.program)
    (untouched : ∀ d ∈ folds, p.methodByName? cls "<clinit>" ≠ some d.initializer) :
    Yields (visit cls) c fun _ after => ∃ folds', Folded p folds' after.program ∧
      ∀ d ∈ folds', d ∈ folds ∨ p.methodByName? cls "<clinit>" = some d.initializer := by
  apply yields_bind _ _ c (fun now after => now = c.program ∧ after = c) _
    (Work.yields_program _ ⟨rfl, rfl⟩)
  intro now after both
  obtain ⟨rfl, rfl⟩ := both
  rw [folded.names.class_name, folded.names.method_by_name?]
  cases named : p.className? cls with
  | none => exact yields_pure () after _ ⟨folds, folded, fun _ among => .inl among⟩
  | some owner =>
      cases initializer : p.methodByName? cls "<clinit>" with
      | none => exact yields_pure () after _ ⟨folds, folded, fun _ among => .inl among⟩
      | some id =>
          obtain ⟨m, body, _⟩ := bound.indexed.method_by_name? initializer
          have row := folded.bodies id
          rw [body, Option.map_some, left_of_apart m.code fun d among own =>
            untouched d among (own ▸ initializer)] at row
          obtain ⟨mq, liveMethod, source⟩ := Option.map_eq_some_iff.mp row
          have code : mq.code = m.code := congrArg (·.2.1) source
          dsimp only
          rw [liveMethod, Option.map_some, Option.getD_some, code]
          apply yields_mono _ after (fun _ now => Extends p folds id now.program)
          · apply yields_for_m (fold owner id) fun now : PassContext => Extends p folds id now.program
            · intro store member now reached
              exact yields_fold bound complete named initializer body member now reached
            · exact ⟨folds, folded, fun _ among => .inl among⟩
          · rintro _ now ⟨folds', folded', known⟩
            refine ⟨folds', folded', fun d among => ?_⟩
            rcases known d among with earlier | rfl
            · exact .inl earlier
            · exact .inr rfl

end Runs

end Inliner

end JvmEdit
