import JvmEdit.Proofs.Edit.Atomic
import JvmEdit.Proofs.Flow.Alike
import JvmEdit.Proofs.References.Steps
set_option autoImplicit false

namespace JvmEdit

-- A change of what the instructions name, with all that is derived from the body left as it is.
structure Method.Inert [Libraries] (m m' : Method) : Prop where
  body : m.Alike id m'
  locals : m'.locals = m.locals
  graph : m'.graph = m.graph
  fault : m'.flowError = m.flowError

namespace Flow

theorem alike_refl [Libraries] (i : Instruction) : i.Alike id i where
  outline := rfl
  effect := by cases effect i.opcode i.operand <;> rfl

theorem alike_operand [Libraries] (f : Operand → Operand)
    (keeps : ∀ opcode o, (f o).outline = o.outline ∧
      effect opcode (f o) = effect opcode o) (i : Instruction) :
    i.Alike id { i with operand := f i.operand } where
  outline := congrArg (Instruction.mk i.id i.opcode) (keeps i.opcode i.operand).1
  effect := by
    rw [(keeps i.opcode i.operand).2]
    exact (alike_refl i).effect

theorem alike_update [Libraries] (code : Stream) (insn : InsnId) (f : Instruction → Instruction)
    (keeps : ∀ i : Instruction, i.Alike id (f i)) :
    List.Forall₂ (Instruction.Alike id) code.toList (code.update insn f).toList := by
  obtain ⟨rows⟩ := code
  induction rows with
  | nil => exact .nil
  | cons i rows ih =>
      rw [Stream.update_cons]
      split
      · exact .cons (keeps i) (List.forall₂_same.mpr fun j _ => alike_refl j)
      · exact .cons (alike_refl i) ih

end Flow

namespace Method

theorem inert_same [Libraries] (m m' : Method) (code : m'.code = m.code)
    (ranges : m'.tryRanges = m.tryRanges)
    (limit : m'.maxStack = m.maxStack) (locals : m'.locals = m.locals) (graph : m'.graph = m.graph)
    (fault : m'.flowError = m.flowError) : m.Inert m' where
  body := by
    refine ⟨?_, by rw [ranges], limit⟩
    rw [code]
    exact List.forall₂_same.mpr fun i _ => Flow.alike_refl i
  locals := locals
  graph := graph
  fault := fault

theorem inert_update [Libraries] (m : Method) (insn : InsnId) (f : Operand → Operand)
    (keeps : ∀ opcode o, (f o).outline = o.outline ∧
      Flow.effect opcode (f o) =
        Flow.effect opcode o) :
    m.Inert { m with code := m.code.update insn fun i => { i with operand := f i.operand } } where
  body := ⟨Flow.alike_update m.code insn _ fun i => Flow.alike_operand f keeps i, rfl, rfl⟩
  locals := rfl
  graph := rfl
  fault := rfl

end Method

namespace Program

theorem inert_map_field_use [Libraries] (f : FieldUse → FieldUse)
    (keeps : ∀ u, (f u).descriptor = u.descriptor)
    (opcode : Opcode) (o : Operand) : (mapFieldUse f o).outline = o.outline ∧
      Flow.effect opcode (mapFieldUse f o) =
        Flow.effect opcode o := by
  cases o with
  | field u => exact ⟨rfl, by simp only [mapFieldUse, Flow.effect, keeps]⟩
  | _ => exact ⟨rfl, rfl⟩

theorem inert_map_call [Libraries] (f : Call → Call)
    (keeps : ∀ c, (f c).descriptor = c.descriptor ∧ (f c).kind = c.kind)
    (opcode : Opcode) (o : Operand) : (mapCall f o).outline = o.outline ∧
      Flow.effect opcode (mapCall f o) =
        Flow.effect opcode o := by
  cases o with
  | call c => exact ⟨rfl, by simp only [mapCall, Flow.effect, (keeps c).1, (keeps c).2]⟩
  | _ => exact ⟨rfl, rfl⟩

-- The methods have a row each, and something holds of all of them.
structure Every (holds : MethodId → Method → Prop) (p : Program) : Prop where
  order : p.methods.Ordered
  each : ∀ id m, p.method? id = some m → holds id m

-- The same with some methods left out.
abbrev EveryBut (ids : List MethodId) (holds : MethodId → Method → Prop) : Program → Prop :=
  Every fun id m => id ∉ ids → holds id m

theorem every_methods {holds : MethodId → Method → Prop} (p q : Program) (same : q.methods = p.methods)
    (every : p.Every holds) : q.Every holds where
  order := same ▸ every.order
  each id m live := by
    rw [method?, same] at live
    exact every.each id m live

theorem every_update_method {holds : MethodId → Method → Prop} (p : Program) (id : MethodId) (f : Method → Method)
    (keeps : ∀ id m, holds id m → holds id (f m)) (every : p.Every holds) :
    (p.updateMethod id f).Every holds where
  order := Table.ordered_modify _ _ _ every.order
  each other m live := by
    rw [method?_update_method] at live
    split at live
    · obtain ⟨before, found, rfl⟩ := Option.map_eq_some_iff.mp live
      exact keeps other before (every.each other before found)
    · exact every.each other m live

theorem every_erase_method {holds : MethodId → Method → Prop} (p q : Program) (id : MethodId)
    (same : q.methods = p.methods.erase id) (every : p.Every holds) : q.Every holds where
  order := same ▸ Table.ordered_erase _ _ every.order
  each other m live := by
    rw [method?, same, Table.get?_erase] at live
    split at live
    · cases live
    · exact every.each other m live

theorem every_withdraw_method {holds : MethodId → Method → Prop} (p : Program) (id : MethodId)
    (m : Method) (every : p.Every holds) : (p.withdrawMethod id m).Every holds := by
  apply every_erase_method p _ id ?_ every
  unfold withdrawMethod unlistMethod
  cases p.className? m.owner <;> rfl

theorem every_get_d {holds : MethodId → Method → Prop} (p : Program) (id : MethodId) (m : Method)
    (every : p.Every holds) (own : holds id m) : holds id ((p.method? id).getD m) := by
  cases live : p.method? id with
  | none => exact own
  | some m' => exact every.each id m' live

theorem every_foldl {holds : MethodId → Method → Prop} {α : Type} (step : Program → α → Program)
    (keeps : ∀ q x, q.Every holds → (step q x).Every holds) (xs : List α) (p : Program)
    (every : p.Every holds) : (xs.foldl step p).Every holds :=
  List.foldlRecOn xs step every fun q kept x _ => keeps q x kept

theorem every_settled {holds : MethodId → Method → Prop} (step : Program → MethodId → Program)
    (ordered : ∀ q id, q.methods.Ordered → (step q id).methods.Ordered)
    (settles : ∀ q id m, (step q id).method? id = some m → holds id m)
    (apart : ∀ q id other, id ≠ other → (step q id).method? other = q.method? other)
    (ids : List MethodId) (p : Program) (but : p.EveryBut ids holds) :
    (ids.foldl step p).Every holds := by
  induction ids generalizing p with
  | nil => exact ⟨but.order, fun id m live => but.each id m live List.not_mem_nil⟩
  | cons id ids ih =>
      refine ih _ ⟨ordered p id but.order, fun other m live unnamed => ?_⟩
      by_cases same : id = other
      · subst same
        exact settles p id m live
      · rw [apart p id other same] at live
        apply but.each other m live
        exact fun named => (List.mem_cons.mp named).elim (Ne.symm same) unnamed

theorem every_but_update_method {holds : MethodId → Method → Prop} (p : Program) (id : MethodId)
    (f : Method → Method) (every : p.Every holds) : (p.updateMethod id f).EveryBut [id] holds where
  order := Table.ordered_modify _ _ _ every.order
  each other m live unnamed := by
    have apart : id ≠ other := fun same => unnamed (List.mem_singleton.mpr same.symm)
    rw [method?_update_method, if_neg apart] at live
    exact every.each other m live

section Upkeep

-- What holds of methods that are up to date, and is nothing that an inert change can touch.
variable [Libraries] {holds : MethodId → Method → Prop}
  (inert : ∀ id m m', m.Inert m' → holds id m → holds id m')

section Inert

include inert

theorem every_record (p : Program) (target : Target) (ref : InsnRef) (every : p.Every holds) :
    (p.record target ref).Every holds := by
  cases target with
  | field _ => exact every_methods p _ rfl every
  | method id =>
      apply every_update_method p id _ ?_ every
      exact fun id m => inert id m _ (m.inert_same _ rfl rfl rfl rfl rfl rfl)
  | «class» _ => exact every_methods p _ rfl every

theorem every_forget (p : Program) (context : ClassId) (ref : InsnRef) (operand : Operand)
    (every : p.Every holds) : (p.forget context ref operand).Every holds := by
  simp only [forget]
  split
  · rename_i target _
    cases target with
    | field _ => exact every_methods p _ rfl every
    | method id =>
        apply every_update_method p id _ ?_ every
        exact fun id m => inert id m _ (m.inert_same _ rfl rfl rfl rfl rfl rfl)
    | «class» _ => exact every_methods p _ rfl every
  · exact every

theorem every_forget_references (p : Program) (id : MethodId) (context : ClassId)
    (every : p.Every holds) : (p.forgetReferences id context).Every holds :=
  every_foldl _ (fun q (i : Instruction) => every_forget inert q context ⟨id, i.id⟩ i.operand) _ p every

theorem every_remember (p : Program) (context : ClassId) (ref : InsnRef) (operand : Operand)
    (every : p.Every holds) : (p.remember context ref operand).Every holds := by
  simp only [remember]
  split
  · exact every_record inert p _ ref every
  · exact every

theorem every_resolve_method (p : Program) (id : MethodId) (every : p.Every holds) :
    (p.resolveMethod id).1.Every holds := by
  cases live : p.method? id with
  | none =>
      rw [resolve_method_dead p id live]
      exact every
  | some m =>
      rw [resolve_method_program p id m live]
      exact every_foldl _ (fun q (i : Instruction) =>
        every_remember inert q m.owner ⟨id, i.id⟩ i.operand) _ p every

theorem every_resolve_all (p : Program) (every : p.Every holds) : p.resolveAll.1.Every holds := by
  rw [resolve_all_program]
  exact every_foldl _ (fun q id => every_resolve_method inert q id) _ p every

variable (f : Operand → Operand)
  (keeps : ∀ opcode o, (f o).outline = o.outline ∧
    Flow.effect opcode (f o) =
      Flow.effect opcode o)

include keeps

theorem every_update_operand (p : Program) (ref : InsnRef) (every : p.Every holds) :
    (p.updateOperand ref f).Every holds := by
  apply every_update_method p ref.method _ ?_ every
  exact fun id m => inert id m _ (m.inert_update ref.insn f keeps)

theorem every_update_all (p : Program) (refs : OrderedSet InsnRef) (every : p.Every holds) :
    (p.updateAll refs f).Every holds :=
  every_foldl _ (fun q ref => every_update_operand inert f keeps q ref) _ p every

theorem every_retargets (p : Program) (refs : List InsnRef) (every : p.Every holds) :
    (refs.foldl (retarget · f) p).Every holds := by
  refine every_foldl _ (fun q ref kept => ?_) refs p every
  have updated := every_update_operand inert f keeps q ref kept
  simp only [retarget, resolveInstruction]
  split
  · exact every_record inert _ _ ref updated
  · exact updated

end Inert

omit [Libraries] in
theorem every_remove_instructions (p : Program) (refs : List InsnRef) (every : p.Every holds) :
    (p.removeInstructions refs).1.EveryBut (p.removeInstructions refs).2.toList holds := by
  let kept (state : Program × OrderedSet MethodId) := state.1.EveryBut state.2.toList holds
  refine List.foldlRecOn (motive := kept) refs _ ⟨every.order, fun id m live _ => every.each id m live⟩ ?_
  rintro ⟨q, touched⟩ but ref -
  simp only [removeInstruction]
  split
  · rename_i removed
    split at removed
    · cases removed
      refine ⟨Table.ordered_modify _ _ _ but.order, fun id m live unnamed => ?_⟩
      rw [method?_update_method] at live
      rw [OrderedSet.mem_to_list, OrderedSet.mem_insert, not_or] at unnamed
      rw [if_neg (Ne.symm unnamed.1)] at live
      exact but.each id m live fun named => unnamed.2 ((OrderedSet.mem_to_list _ _).mp named)
    · cases removed
  · rename_i removed
    split at removed
    · cases removed
    · cases removed
      exact but

variable (refreshed : ∀ id (m : Method), holds id m.collectLocals.withGraph)

include refreshed

theorem every_refresh (p : Program) (ids : List MethodId) (but : p.EveryBut ids holds) :
    (p.refresh ids).value.Every holds := by
  rw [refresh_program]
  apply every_settled _ ?_ ?_ ?_ ids p but
  · exact fun q id ordered => Table.ordered_modify _ _ _ (Table.ordered_modify _ _ _ ordered)
  · intro q id m live
    rw [refreshMethod, method?_update_method, if_pos rfl, method?_update_method, if_pos rfl,
      Option.map_map] at live
    obtain ⟨before, _, rfl⟩ := Option.map_eq_some_iff.mp live
    exact refreshed id before
  · intro q id other differ
    rw [refreshMethod, method?_update_method, if_neg differ, method?_update_method, if_neg differ]

section Edits

variable (p q : Program) (every : p.Every holds)

include every

omit refreshed

section Inert

include inert

theorem every_rename_field (id : FieldId) (new : String) (done : p.renameField id new = .ok q) :
    q.Every holds := by
  obtain ⟨f, _, ⟨_, rfl⟩ | ⟨owner, _, _, _, _, _, rfl⟩⟩ := rename_field_ok p q id new done
  · exact every
  · refine every_update_all inert _ (inert_map_field_use _ ?_) _ _ (every_methods p _ rfl every)
    exact fun _ => rfl

theorem every_rename_method (id : MethodId) (new : String) (done : p.renameMethod id new = .ok q) :
    q.Every holds := by
  obtain ⟨m, _, _, ⟨_, rfl⟩ | ⟨owner, _, _, _, rfl⟩⟩ := rename_method_ok p q id new done
  · exact every
  · refine every_update_all inert _ (inert_map_call _ ?_) _ _ ?_
    · exact fun _ => ⟨rfl, rfl⟩
    · refine every_update_method _ id _ ?_ (every_methods p _ rfl every)
      exact fun id m => inert id m _ (m.inert_same _ rfl rfl rfl rfl rfl rfl)

theorem every_place_method (id : MethodId) (owner : ClassId) (key : String) (m : Method)
    (current : holds id m) : (p.placeMethod id owner key m).Every holds := by
  refine ⟨Table.ordered_insert _ _ _ every.order, fun other m' live => ?_⟩
  rw [method?_place_method] at live
  split at live
  · rename_i same
    subst same
    cases live
    refine inert id m _ ?_ current
    exact m.inert_same _ rfl rfl rfl rfl rfl rfl
  · exact every.each other m' live

theorem every_move_field (id : FieldId) (destination : ClassId)
    (done : p.moveField id destination = .ok q) : q.Every holds := by
  obtain ⟨f, name, _, _, rfl⟩ := move_field_transfers p q destination id done
  refine every_retargets inert _ (inert_map_field_use _ ?_) _ _ (every_methods p _ ?_ every)
  · exact fun _ => rfl
  · unfold withdrawField
    cases p.className? f.owner <;> rfl

theorem every_move_method (id : MethodId) (destination : ClassId)
    (done : p.moveMethod id destination = .ok q) : q.Every holds := by
  obtain ⟨m, target, found, _, rfl⟩ := move_method_transfers p q destination id done
  have forgotten := every_forget_references inert p id m.owner every
  have current := every_get_d _ id m forgotten (every.each id m found)
  have taken := every_withdraw_method _ id m forgotten
  apply every_resolve_method inert
  refine every_retargets inert _ (inert_map_call _ ?_) _ _ ?_
  · exact fun _ => ⟨rfl, rfl⟩
  · apply every_place_method inert _ taken
    refine inert id _ _ ?_ current
    exact Method.inert_same _ _ rfl rfl rfl rfl rfl rfl

end Inert

include refreshed

theorem every_delete_field (logged : Logged Program) (id : FieldId)
    (done : p.deleteField id = .ok logged) : logged.value.Every holds := by
  simp only [deleteField] at done
  split at done
  · cases done
  · rename_i f _
    cases done
    apply every_refresh refreshed
    have removed := every_remove_instructions p f.references.toList every
    refine every_methods _ _ ?_ removed
    dsimp only
    split <;> rfl

theorem every_edit_body (logged : Logged Program) (id : MethodId) (f : Method → Method)
    (done : p.editBody id f = .ok logged) : logged.value.Every holds := by
  obtain ⟨m, _, rfl⟩ := edit_body_ok p logged id f done
  exact every_refresh refreshed _ [id] (every_but_update_method p id f every)

include inert

theorem every_delete_method (logged : Logged Program) (id : MethodId)
    (done : p.deleteMethod id = .ok logged) : logged.value.Every holds := by
  simp only [deleteMethod] at done
  split at done
  · cases done
  · rename_i m _
    cases done
    apply every_refresh refreshed
    have forgotten := every_forget_references inert p id m.owner every
    let callers := m.invocations.toList.filter (·.method ≠ id)
    have removed := every_remove_instructions _ callers forgotten
    have rest : ∀ q : Program,
        q.methods = ((p.forgetReferences id m.owner).removeInstructions callers).1.methods.erase id →
        q.EveryBut (((p.forgetReferences id m.owner).removeInstructions callers).2.erase id).toList
          holds := by
      intro q same
      refine ⟨same ▸ Table.ordered_erase _ _ removed.order, fun other m' live unnamed => ?_⟩
      rw [method?, same, Table.get?_erase] at live
      split at live
      · cases live
      · rename_i apart
        apply removed.each other m' live
        intro touched
        apply unnamed
        rw [OrderedSet.mem_to_list, OrderedSet.mem_erase]
        exact ⟨(OrderedSet.mem_to_list _ _).mp touched, Ne.symm apart⟩
    apply rest
    dsimp only
    split <;> rfl

theorem every_delete_instructions (logged : Logged (Program × Nat)) (id : MethodId)
    (insns : List InsnId) (done : p.deleteInstructions id insns = .ok logged) :
    logged.value.1.Every holds := by
  obtain ⟨m, _, rfl⟩ := delete_instructions_ok p logged id insns done
  apply every_refresh refreshed
  have shortened := every_but_update_method p id (fun m' => { m' with code := (m.code.cut insns).1 }) every
  refine every_foldl _ (fun q (i : Instruction) kept => ?_) _ _ shortened
  split
  · apply every_forget _ q m.owner _ i.operand kept
    exact fun id m m' change current unnamed => inert id m m' change (current unnamed)
  · exact kept

end Edits

end Upkeep

end Program

end JvmEdit
