import JvmEdit.Proofs.References.Deletion
import JvmEdit.Proofs.References.Ready
set_option autoImplicit false

namespace JvmEdit

namespace Stream

theorem foldl_cut_step_retain (ids : List InsnId) (code : Stream) (before : List Instruction)
    (unique : (code.toList.map (·.id)).Nodup) :
    (ids.foldl cutStep (code, before)).1 = code.retain (fun i => !decide (i.id ∈ ids)) ∧
      ∀ i, i ∈ before ∨ (i ∈ code.toList ∧ i.id ∈ ids) → i ∈ (ids.foldl cutStep (code, before)).2 := by
  induction ids generalizing code before with
  | nil =>
      constructor
      · simp [retain]
      · intro i among
        rcases among with member | ⟨_, none⟩
        · exact member
        · cases none
  | cons insn ids ih =>
      rw [List.foldl_cons]
      cases found : code.get? insn with
      | none =>
          have absent : ∀ i ∈ code.toList, i.id ≠ insn := by
            intro i member same
            rw [← same, get?_of_mem code i unique member] at found
            cases found
          have step : cutStep (code, before) insn = (code, before) := by simp only [cutStep, found]
          rw [step]
          obtain ⟨left, removed⟩ := ih code before unique
          constructor
          · rw [left, retain, retain]
            congr 1
            apply List.filter_congr
            intro i member
            simp [absent i member]
          · intro i among
            apply removed
            rcases among with earlier | ⟨member, named⟩
            · exact .inl earlier
            · exact .inr ⟨member, List.mem_of_ne_of_mem (absent i member) named⟩
      | some j =>
          obtain ⟨memberJ, isInsn⟩ := mem_of_get? code insn j found
          have step : cutStep (code, before) insn = (code.remove insn, j :: before) := by
            simp only [cutStep, found]
          have shorter := remove_eq_retain code insn unique
          rw [step, shorter]
          obtain ⟨left, removed⟩ := ih (code.retain (·.id ≠ insn)) (j :: before)
            (unique.sublist (List.filter_sublist.map _))
          constructor
          · rw [left, retain, retain, retain, List.filter_filter]
            congr 1
            apply List.filter_congr
            intro i _
            by_cases same : i.id = insn <;> simp [same]
          · intro i among
            apply removed
            rcases among with earlier | ⟨member, named⟩
            · exact .inl (List.mem_cons_of_mem _ earlier)
            · by_cases same : i.id = insn
              · have isJ := get?_of_mem code i unique member
                rw [same, found] at isJ
                cases isJ
                exact .inl List.mem_cons_self
              · refine .inr ⟨?_, List.mem_of_ne_of_mem same named⟩
                rw [to_list_retain, List.mem_filter]
                exact ⟨member, decide_eq_true same⟩

theorem cut_retain (code : Stream) (ids : List InsnId) (unique : (code.toList.map (·.id)).Nodup) :
    (code.cut ids).1 = code.retain (fun i => !decide (i.id ∈ ids)) ∧
      ∀ i ∈ code.toList, i.id ∈ ids → i ∈ (code.cut ids).2 := by
  obtain ⟨left, removed⟩ := foldl_cut_step_retain ids code [] unique
  exact ⟨left, fun i member named => removed i (.inr ⟨member, named⟩)⟩

theorem mem_foldl_cut_step (ids : List InsnId) (code : Stream) (before : List Instruction) (i : Instruction)
    (member : i ∈ (ids.foldl cutStep (code, before)).2) : i ∈ before ∨ (i ∈ code.toList ∧ i.id ∈ ids) := by
  induction ids generalizing code before with
  | nil => exact .inl member
  | cons insn ids ih =>
      rw [List.foldl_cons] at member
      cases found : code.get? insn with
      | none =>
          have step : cutStep (code, before) insn = (code, before) := by simp only [cutStep, found]
          rw [step] at member
          rcases ih code before member with earlier | ⟨present, named⟩
          · exact .inl earlier
          · exact .inr ⟨present, List.mem_cons_of_mem _ named⟩
      | some j =>
          have step : cutStep (code, before) insn = (code.remove insn, j :: before) := by
            simp only [cutStep, found]
          obtain ⟨memberJ, isInsn⟩ := mem_of_get? code insn j found
          rw [step] at member
          rcases ih _ _ member with earlier | ⟨present, named⟩
          · rcases List.mem_cons.mp earlier with rfl | earlier
            · exact .inr ⟨memberJ, List.mem_cons.mpr (.inl isInsn)⟩
            · exact .inl earlier
          · exact .inr ⟨List.mem_of_mem_eraseP present, List.mem_cons_of_mem _ named⟩

theorem mem_cut (code : Stream) (ids : List InsnId) (i : Instruction) (member : i ∈ (code.cut ids).2) :
    i ∈ code.toList ∧ i.id ∈ ids := by
  rcases mem_foldl_cut_step ids code [] i member with none | found
  · cases none
  · exact found

end Stream

theorem Program.bare_forget_all (p : Program) (id : MethodId) (context : ClassId)
    (removed : List Instruction) : (p.forgetAll id context removed).bare = p.bare := by
  rw [forgetAll]
  refine List.foldlRecOn (motive := fun q : Program => q.bare = p.bare) _ _ rfl ?_
  intro q same i _
  split
  · rw [← same, forget]
    split
    · exact bare_unrecord q _ _
    · rfl
  · exact same

-- What a traversal and an analysis read of a method.
def Method.source (m : Method) : MethodKind × Stream × List TryRange × Option UInt16 :=
  (m.kind, m.code, m.tryRanges, m.maxStack)

namespace Program

theorem fields_forget_all (p : Program) (id : MethodId) (context : ClassId) (removed : List Instruction)
    (field : FieldId) (named : ∀ i ∈ removed, i.operand.isReference = true →
      p.lookup? (some context) i.operand = some (.field field)) :
    (∀ other, field ≠ other → (p.forgetAll id context removed).field? other = p.field? other) ∧
      ((p.forgetAll id context removed).field? field).map Field.value = (p.field? field).map Field.value := by
  have kept : SameSites p (p.forgetAll id context removed) ∧
      (∀ other, field ≠ other → (p.forgetAll id context removed).field? other = p.field? other) ∧
      ((p.forgetAll id context removed).field? field).map Field.value = (p.field? field).map Field.value := by
    rw [forgetAll]
    refine List.foldlRecOn (motive := fun q : Program => SameSites p q ∧
      (∀ other, field ≠ other → q.field? other = p.field? other) ∧
      (q.field? field).map Field.value = (p.field? field).map Field.value) _ _
      ⟨.refl p, fun _ _ => rfl, rfl⟩ ?_
    intro q kept i member
    obtain ⟨same, others, value⟩ := kept
    split
    · rename_i refers
      have found := (same.lookup? context i.operand).trans (named i member refers)
      refine ⟨same.trans (same_sites_forget q context _ i.operand), ?_, ?_⟩
      · intro other differs
        rw [forget, found, ← others other differs]
        exact (field?_update_field q field other _).trans (if_neg differs)
      · rw [forget, found, ← value]
        refine (congrArg (Option.map Field.value) (field?_update_field q field field _)).trans ?_
        rw [if_pos rfl, Option.map_map]
        rfl
    · exact ⟨same, others, value⟩
  exact kept.2

section Deletion

variable [Libraries] {p : Program} {id : MethodId} {m : Method} {ids : List InsnId}
  {logged : Logged (Program × Nat)}
  (live : p.method? id = some m) (done : p.deleteInstructions id ids = .ok logged)

include live done

theorem deleted_eq : logged.value.1 = (((p.updateMethod id fun m' => { m' with code := (m.code.cut ids).1 }).forgetAll
    id m.owner (m.code.cut ids).2.reverse).refresh [id]).value := by
  rw [delete_instructions_eq p id ids m live] at done
  cases done
  rfl

theorem same_names_delete_instructions : SameNames p logged.value.1 := by
  rw [deleted_eq live done]
  have shortened := same_names_update_method p id (fun m' => { m' with code := (m.code.cut ids).1 }) fun _ => rfl
  exact (shortened.trans (same_names_forget_all _ id m.owner _)).trans (same_names_refresh _ [id])

theorem sources_delete_instructions (unique : (m.code.toList.map (·.id)).Nodup) (other : MethodId) :
    (logged.value.1.method? other).map Method.source = if id = other then
      some (m.kind, m.code.retain (fun i => !decide (i.id ∈ ids)), m.tryRanges, m.maxStack)
    else (p.method? other).map Method.source := by
  rw [deleted_eq live done]
  let shortened := p.updateMethod id fun m' => { m' with code := (m.code.cut ids).1 }
  let forgotten := shortened.forgetAll id m.owner (m.code.cut ids).2.reverse
  have rows : (forgotten.method? other).map Method.source = (shortened.method? other).map Method.source := by
    have bare := congrArg (Option.map Method.source) (method?_of_bare _ forgotten
      (bare_forget_all shortened id m.owner _) other)
    rwa [Option.map_map, Option.map_map] at bare
  have cutRow := method?_update_method p id other fun m' => { m' with code := (m.code.cut ids).1 }
  change ((forgotten.refresh [id]).value.method? other).map Method.source = _
  rw [method?_refresh, apply_ite (Option.map Method.source), Option.map_map]
  change (if id = other then (forgotten.method? other).map Method.source else _) = _
  rw [ite_self, rows, cutRow, ← (m.code.cut_retain ids unique).1]
  by_cases same : id = other
  · rw [if_pos same, if_pos same, ← same, live]
    rfl
  · rw [if_neg same, if_neg same]

theorem fields_delete_instructions (field : FieldId)
    (named : ∀ i ∈ m.code.toList, i.id ∈ ids → i.operand.isReference = true →
      p.lookup? (some m.owner) i.operand = some (.field field)) :
    (∀ other, field ≠ other → logged.value.1.field? other = p.field? other) ∧
      (logged.value.1.field? field).map Field.value = (p.field? field).map Field.value := by
  rw [deleted_eq live done]
  let shortened := p.updateMethod id fun m' => { m' with code := (m.code.cut ids).1 }
  obtain ⟨others, value⟩ := fields_forget_all shortened id m.owner (m.code.cut ids).2.reverse field (by
    intro i member refers
    obtain ⟨present, isCut⟩ := m.code.mem_cut ids i (List.mem_reverse.mp member)
    rw [← named i present isCut refers]
    exact lookup?_congr p shortened rfl (fun _ => rfl) m.owner i.operand)
  have refreshed : ∀ q : Program, ∀ x, (q.refresh [id]).value.field? x = q.field? x := by
    intro q x
    rw [refresh_program]
    rfl
  constructor
  · intro other differs
    rw [refreshed]
    exact others other differs
  · rw [refreshed]
    exact value

end Deletion

end Program

end JvmEdit
