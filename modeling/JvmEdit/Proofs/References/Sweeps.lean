import JvmEdit.Proofs.References.Recorded
set_option autoImplicit false

namespace JvmEdit

namespace Stream

theorem update_eq_map (code : Stream) (id : InsnId) (f : Instruction → Instruction)
    (unique : (code.toList.map (·.id)).Nodup) :
    code.update id f = code.map fun i => if i.id = id then f i else i := by
  obtain ⟨rows⟩ := code
  change (rows.map (·.id)).Nodup at unique
  induction rows with
  | nil => rfl
  | cons i rows ih =>
      rw [List.map_cons, List.nodup_cons] at unique
      rw [update_cons]
      by_cases same : i.id = id
      · have others : rows.map (fun j => if j.id = id then f j else j) = rows := by
          refine (List.map_congr_left fun j member => if_neg fun hit => unique.1 ?_).trans rows.map_id
          exact List.mem_map.mpr ⟨j, member, hit.trans same.symm⟩
        rw [if_pos same, map, List.map_cons, if_pos same, others]
      · rw [if_neg same, ih unique.2, map, map, List.map_cons, if_neg same]

theorem remove_eq_retain (code : Stream) (id : InsnId) (unique : (code.toList.map (·.id)).Nodup) :
    code.remove id = code.retain (·.id ≠ id) := by
  obtain ⟨rows⟩ := code
  change (rows.map (·.id)).Nodup at unique
  simp only [remove, retain]
  congr 1
  induction rows with
  | nil => rfl
  | cons i rows ih =>
      rw [List.map_cons, List.nodup_cons] at unique
      by_cases same : i.id = id
      · have others : rows.filter (fun j => decide (j.id ≠ id)) = rows := by
          refine List.filter_eq_self.mpr fun j member => decide_eq_true fun hit => unique.1 ?_
          exact List.mem_map.mpr ⟨j, member, hit.trans same.symm⟩
        rw [List.eraseP_cons_of_pos (by simpa using same), List.filter_cons_of_neg (by simpa using same),
          others]
      · rw [List.eraseP_cons_of_neg (by simpa using same), List.filter_cons_of_pos (by simpa using same),
          ih unique.2]

theorem get?_retain (code : Stream) (keep : InsnId → Bool) (id : InsnId) :
    (code.retain fun i => keep i.id).get? id = if keep id then code.get? id else none := by
  rw [get?, to_list_retain, List.find?_filter, get?]
  by_cases kept : keep id = true
  · rw [if_pos kept]
    congr 1
    funext i
    by_cases hit : i.id = id <;> simp [hit, kept]
  · rw [if_neg kept, List.find?_eq_none]
    intro i _
    by_cases hit : i.id = id <;> simp [hit, kept]

end Stream

namespace Method

-- The method with the operands of some instructions changed.
def redirected (m : Method) (touched : InsnId → Bool) (f : Operand → Operand) : Method :=
  { m with code := m.code.map fun i => if touched i.id then { i with operand := f i.operand } else i }

-- The method with some instructions taken out.
def thinned (m : Method) (gone : InsnId → Bool) : Method :=
  { m with code := m.code.retain fun i => !gone i.id }

section Batches

variable (m : Method) (id : MethodId) (ref : InsnRef) (refs : List InsnRef)

theorem redirected_cons (f : Operand → Operand) (settles : ∀ o, f (f o) = f o) :
    (m.redirected (fun insn => ref = ⟨id, insn⟩) f).redirected (fun insn => ⟨id, insn⟩ ∈ refs) f =
      m.redirected (fun insn => ⟨id, insn⟩ ∈ ref :: refs) f := by
  simp only [redirected, Stream.map, List.map_map]
  congr 2
  apply List.map_congr_left
  intro i _
  by_cases atHead : ref = ⟨id, i.id⟩
  · by_cases later : ref ∈ refs <;> simp [← atHead, later, settles]
  · simp [atHead, Ne.symm atHead]

theorem thinned_cons :
    (m.thinned fun insn => ref = ⟨id, insn⟩).thinned (fun insn => ⟨id, insn⟩ ∈ refs) =
      m.thinned fun insn => ⟨id, insn⟩ ∈ ref :: refs := by
  simp only [thinned, Stream.retain, List.filter_filter]
  congr 2
  apply List.filter_congr
  intro i _
  by_cases atHead : ref = ⟨id, i.id⟩
  · simp [← atHead]
  · simp [atHead, Ne.symm atHead]

end Batches

theorem redirected_none (m : Method) (f : Operand → Operand) : m.redirected (fun _ => false) f = m := by
  simp [redirected, Stream.map]

theorem thinned_none (m : Method) : (m.thinned fun _ => false) = m := by
  simp [thinned, Stream.retain]

end Method

theorem InsnRef.eq_within_iff (ref : InsnRef) (insn : InsnId) :
    ref = ⟨ref.method, insn⟩ ↔ insn = ref.insn :=
  ⟨fun same => (congrArg InsnRef.insn same).symm, fun same => by rw [same]⟩

namespace Program

section Bodies

variable (p : Program) (f : Operand → Operand)

theorem method?_update_operand (coded : p.Coded) (ref : InsnRef) (n : MethodId) :
    (p.updateOperand ref f).method? n =
      (p.method? n).map (·.redirected (fun insn => ref = ⟨n, insn⟩) f) := by
  rw [updateOperand, method?_update_method]
  cases live : p.method? n with
  | none => simp
  | some m =>
      by_cases same : ref.method = n
      · subst same
        have code := m.code.update_eq_map ref.insn (fun i => { i with operand := f i.operand })
          (coded _ m live).unique
        simp only [if_true, Option.map_some, code, Method.redirected, Stream.map]
        congr 4
        funext i
        simp only [ref.eq_within_iff, decide_eq_true_eq]
      · have apart : ∀ insn, ¬ref = ⟨n, insn⟩ := fun insn hit => same (congrArg InsnRef.method hit)
        simp [same, apart, Method.redirected_none]

theorem method?_update_operands (settles : ∀ o, f (f o) = f o)
    (keepsPlain : ∀ o, o.Plain → (f o).Plain) (coded : p.Coded) (refs : List InsnRef) (n : MethodId) :
    (refs.foldl (fun q ref => q.updateOperand ref f) p).method? n =
      (p.method? n).map (·.redirected (fun insn => (⟨n, insn⟩ : InsnRef) ∈ refs) f) := by
  induction refs generalizing p with
  | nil => simp [Method.redirected_none]
  | cons ref refs ih =>
      rw [List.foldl_cons, ih _ (coded_update_operand p ref f keepsPlain coded),
        method?_update_operand p f coded, Option.map_map]
      exact congrArg (Option.map · _) (funext fun m => m.redirected_cons n ref refs f settles)

theorem update_operands_frame (refs : List InsnRef) :
    let q := refs.foldl (fun q ref => q.updateOperand ref f) p
    q.classes = p.classes ∧ q.fields = p.fields ∧ q.index = p.index := by
  refine List.foldlRecOn (motive := fun q : Program =>
    q.classes = p.classes ∧ q.fields = p.fields ∧ q.index = p.index) refs _ ⟨rfl, rfl, rfl⟩ ?_
  exact fun _ same _ _ => same

theorem method?_remove_instruction (coded : p.Coded) (ref : InsnRef) (n : MethodId) :
    (p.removeInstruction ref).1.method? n =
      (p.method? n).map (·.thinned fun insn => ref = ⟨n, insn⟩) := by
  cases live : p.method? n with
  | none =>
      rcases remove_instruction_program p ref with same | removed
      · simp [same, live]
      · simp [removed, method?_update_method, live]
  | some m =>
      by_cases same : ref.method = n
      · subst same
        have code := m.code.remove_eq_retain ref.insn (coded _ m live).unique
        have thinned : m.thinned (fun insn => ref = ⟨ref.method, insn⟩) =
            { m with code := m.code.remove ref.insn } := by
          rw [code, Method.thinned]
          congr 2
          funext i
          simp only [ref.eq_within_iff, ne_eq, decide_not]
        rw [Option.map_some, thinned]
        cases found : m.code.get? ref.insn with
        | some i => simp [removeInstruction, method?_update_method, live, found]
        | none =>
            have absent := List.find?_eq_none.mp found
            have missing : m.code.remove ref.insn = m.code :=
              congrArg Stream.mk (List.eraseP_of_forall_not absent)
            simp [removeInstruction, live, found, missing]
      · have apart : ∀ insn, ¬ref = ⟨n, insn⟩ := fun insn hit => same (congrArg InsnRef.method hit)
        rcases remove_instruction_program p ref with unchanged | removed
        · simp [unchanged, live, apart, Method.thinned_none]
        · simp [removed, method?_update_method, same, live, apart, Method.thinned_none]

theorem method?_remove_instructions (coded : p.Coded) (refs : List InsnRef) (n : MethodId) :
    (p.removeInstructions refs).1.method? n =
      (p.method? n).map (·.thinned fun insn => (⟨n, insn⟩ : InsnRef) ∈ refs) := by
  rw [remove_instructions_program]
  induction refs generalizing p with
  | nil => simp [Method.thinned_none]
  | cons ref refs ih =>
      rw [List.foldl_cons, ih _ (coded_remove_instruction p ref coded),
        method?_remove_instruction p coded, Option.map_map]
      exact congrArg (Option.map · _) (funext fun m => m.thinned_cons n ref refs)

theorem site?_retargets (settles : ∀ o, f (f o) = f o) (refs : List InsnRef) (other : InsnRef) :
    (refs.foldl (retarget · f) p).site? other =
      if other ∈ refs then (p.site? other).map fun site => (site.1, f site.2)
      else p.site? other :=
  site?_changes p refs f settles _ (fun q ref other => site?_retarget q f ref other) other

theorem retargets_rows (settles : ∀ o, f (f o) = f o) (keepsPlain : ∀ o, o.Plain → (f o).Plain)
    (coded : p.Coded) (refs : List InsnRef) (id : FieldId) (lands : Lands p f refs (.field id)) :
    let q := refs.foldl (retarget · f) p
    q.classes = p.classes ∧ q.index = p.index ∧
    (∀ n, q.method? n =
      (p.method? n).map (·.redirected (fun insn => (⟨n, insn⟩ : InsnRef) ∈ refs) f)) ∧
    (∀ i, i ≠ id → q.field? i = p.field? i) ∧
    ∀ row, p.field? id = some row → ∃ references, q.field? id = some { row with references } := by
  induction refs generalizing p with
  | nil =>
      refine ⟨rfl, rfl, fun n => ?_, fun _ _ => rfl, fun row live => ⟨row.references, live⟩⟩
      simp [Method.redirected_none]
  | cons ref refs ih =>
      have step := retarget_eq p f ref _ lands.head
      obtain ⟨classes, index, methods, others, own⟩ :=
        ih (p.retarget f ref) (coded_retarget p f ref keepsPlain coded) (lands.tail settles)
      rw [List.foldl_cons]
      refine ⟨classes.trans (by rw [step]; rfl), index.trans (by rw [step]; rfl), ?_, ?_, ?_⟩
      · intro n
        have head : (p.retarget f ref).method? n = (p.updateOperand ref f).method? n := by
          rw [step]
          rfl
        rw [methods, head, method?_update_operand p f coded, Option.map_map]
        exact congrArg (Option.map · _) (funext fun m => m.redirected_cons n ref refs f settles)
      · intro i differ
        rw [others i differ, step]
        exact (field?_update_field _ id i _).trans (if_neg (Ne.symm differ))
      · intro row live
        refine own { row with references := row.references.insert ref } ?_
        rw [step]
        refine (field?_update_field _ id id _).trans ?_
        rw [if_pos rfl]
        exact congrArg (Option.map _) live

end Bodies

theorem ne_of_free {α : Type} {find : String → Option α} {free taken : String} {id : α}
    (isFree : find free = none) (isTaken : find taken = some id) : free ≠ taken := by
  intro same
  rw [same, isTaken] at isFree
  cases isFree

section Recorded

variable (p : Program) (ref : InsnRef)

theorem mem_references (id : FieldId) (f : Field) (found : p.field? id = some f) :
    ref ∈ f.references.toList ↔ p.Holds (.field id) ref := by
  rw [OrderedSet.mem_to_list, Holds, records, found]
  rfl

theorem mem_invocations (id : MethodId) (m : Method) (found : p.method? id = some m) :
    ref ∈ m.invocations.toList ↔ p.Holds (.method id) ref := by
  rw [OrderedSet.mem_to_list, Holds, records, found]
  rfl

end Recorded

section Lists

variable (p : Program) (owner c : ClassId)

theorem class_naming?_update_class (f : Class → Class) (g : ClassNaming → ClassNaming)
    (agree : ∀ row, (f row).naming = g row.naming) : (p.updateClass owner f).classNaming? c =
      (p.classNaming? c).map fun naming => if c = owner then g naming else naming := by
  rw [classNaming?, class?_update_class, classNaming?]
  by_cases same : owner = c
  · simp [same, Function.comp_def, agree]
  · simp [same, Ne.symm same, Function.comp_def]

theorem class?_detach_field (id : FieldId) (key : String) :
    (p.detachField id owner key).class? c = if owner = c then
      (p.class? c).map fun row => { row with fields := row.fields.filter (· ≠ id) }
      else p.class? c :=
  class?_update_class (p.updateIndex _) owner c _

theorem class?_place_field (id : FieldId) (key : String) (f : Field) :
    (p.placeField id owner key f).class? c = if owner = c then
      (p.class? c).map fun row => { row with fields := row.fields ++ [id] }
      else p.class? c :=
  class?_update_class { p with
    fields := p.fields.insert id { f with owner }, index := p.index.insertField key id } owner c _

theorem class_naming?_detach_field (id : FieldId) (key : String) :
    (p.detachField id owner key).classNaming? c = (p.classNaming? c).map fun naming =>
      if c = owner then { naming with fields := naming.fields.filter (· ≠ id) } else naming :=
  class_naming?_update_class (p.updateIndex _) owner c _ _ fun _ => rfl

theorem class_naming?_detach_method (id : MethodId) (key : String) :
    (p.detachMethod id owner key).classNaming? c = (p.classNaming? c).map fun naming =>
      if c = owner then { naming with methods := naming.methods.filter (· ≠ id) } else naming :=
  class_naming?_update_class (p.updateIndex _) owner c _ _ fun _ => rfl

theorem class_naming?_place_method (id : MethodId) (key : String) (m : Method) :
    (p.placeMethod id owner key m).classNaming? c = (p.classNaming? c).map fun naming =>
      if c = owner then { naming with methods := naming.methods ++ [id] } else naming :=
  class_naming?_update_class { p with
    methods := p.methods.insert id { m with owner }, index := p.index.insertMethod key id } owner c _ _
    fun _ => rfl

variable (destination : ClassId) (elsewhere : owner ≠ destination)

include elsewhere

theorem class?_moved_field (id : FieldId) (key newKey : String) (f : Field) :
    ((p.detachField id owner key).placeField id destination newKey f).class? c =
      (p.class? c).map fun row => { row with
        fields :=
          if c = destination then row.fields ++ [id]
          else if c = owner then row.fields.filter (· ≠ id)
          else row.fields } := by
  rw [class?_place_field, class?_detach_field]
  by_cases atGoal : c = destination
  · simp [atGoal, elsewhere]
  · by_cases atSource : c = owner
    · simp [atSource, Ne.symm elsewhere, elsewhere]
    · simp [atGoal, atSource, Ne.symm atGoal, Ne.symm atSource]

theorem class_naming?_moved_method (id : MethodId) (key newKey : String) (m : Method) :
    ((p.detachMethod id owner key).placeMethod id destination newKey m).classNaming? c =
      (p.classNaming? c).map fun naming => { naming with
        methods :=
          if c = destination then naming.methods ++ [id]
          else if c = owner then naming.methods.filter (· ≠ id)
          else naming.methods } := by
  rw [class_naming?_place_method, class_naming?_detach_method, Option.map_map]
  congr 1
  funext naming
  by_cases atGoal : c = destination
  · simp [atGoal, Ne.symm elsewhere]
  · by_cases atSource : c = owner
    · simp [atSource, elsewhere]
    · simp [atGoal, atSource]

end Lists

end Program

end JvmEdit
