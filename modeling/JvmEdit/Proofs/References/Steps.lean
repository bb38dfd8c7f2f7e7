import JvmEdit.Proofs.References.Sound
set_option autoImplicit false

namespace JvmEdit

namespace Program

section Operands

variable (p : Program) (ref : InsnRef)

theorem site?_update_operand (f : Operand → Operand) (other : InsnRef) :
    (p.updateOperand ref f).site? other =
      if ref = other then (p.site? other).map fun site => (site.1, f site.2) else p.site? other := by
  rw [site?, updateOperand, method?_update_method, site?]
  by_cases sameMethod : ref.method = other.method
  · rw [if_pos sameMethod]
    cases p.method? other.method with
    | none => simp
    | some m =>
        have code := Stream.get?_update m.code ref.insn other.insn
          (fun i => { i with operand := f i.operand }) fun _ => rfl
        by_cases sameInsn : ref.insn = other.insn
        · have same : ref = other := by
            obtain ⟨a, b⟩ := ref
            obtain ⟨c, d⟩ := other
            cases sameMethod
            cases sameInsn
            rfl
          rw [if_pos sameInsn] at code
          simp only [Option.map_some, Option.bind_some, code, if_pos same, Option.map_map]
          rfl
        · have differ : ref ≠ other := fun same => sameInsn (congrArg InsnRef.insn same)
          rw [if_neg sameInsn] at code
          simp only [Option.map_some, Option.bind_some, code, if_neg differ]
  · have differ : ref ≠ other := fun same => sameMethod (congrArg InsnRef.method same)
    rw [if_neg sameMethod, if_neg differ]

theorem records_update_operand (f : Operand → Operand) (target : Target) :
    (p.updateOperand ref f).records target = p.records target := by
  refine records_update_method p ref.method _ ?_ target
  intro m
  rfl

theorem coded_update_operand (f : Operand → Operand) (keepsPlain : ∀ o, o.Plain → (f o).Plain)
    (coded : p.Coded) : (p.updateOperand ref f).Coded := by
  intro id m found
  rw [updateOperand, method?_update_method] at found
  by_cases same : ref.method = id
  · rw [if_pos same] at found
    obtain ⟨before, foundBefore, rfl⟩ := Option.map_eq_some_iff.mp found
    exact Stream.fits_update before.code ref.insn f (coded id before foundBefore) keepsPlain
  · rw [if_neg same] at found
    exact coded id m found

theorem lookup?_update_operand (f : Operand → Operand) (context : ClassId) (operand : Operand) :
    (p.updateOperand ref f).lookup? (some context) operand = p.lookup? (some context) operand :=
  lookup?_congr p _ rfl (fun _ => rfl) context operand

theorem site?_remove_instruction (coded : p.Coded) (other : InsnRef) :
    (p.removeInstruction ref).1.site? other = if ref = other then none else p.site? other := by
  cases found : (p.method? ref.method).bind fun m => m.code.get? ref.insn with
  | none =>
      rw [removeInstruction, found]
      by_cases same : ref = other
      · rw [if_pos same, ← same, site?]
        cases live : p.method? ref.method with
        | none => rfl
        | some m => simpa [live] using found
      · rw [if_neg same]
  | some i =>
      rw [removeInstruction, found]
      dsimp only
      rw [site?, method?_update_method, site?]
      by_cases sameMethod : ref.method = other.method
      · rw [if_pos sameMethod]
        cases live : p.method? other.method with
        | none => simp
        | some m =>
            have code := Stream.get?_remove m.code ref.insn other.insn (coded _ m live).unique
            by_cases sameInsn : ref.insn = other.insn
            · have same : ref = other := by
                obtain ⟨a, b⟩ := ref
                obtain ⟨c, d⟩ := other
                cases sameMethod
                cases sameInsn
                rfl
              rw [if_pos sameInsn] at code
              simp only [Option.map_some, Option.bind_some, code, Option.map_none, if_pos same]
            · have differ : ref ≠ other := fun same => sameInsn (congrArg InsnRef.insn same)
              rw [if_neg sameInsn] at code
              simp [code, differ]
      · have differ : ref ≠ other := fun same => sameMethod (congrArg InsnRef.method same)
        rw [if_neg sameMethod, if_neg differ]

theorem remove_instruction_program : (p.removeInstruction ref).1 = p ∨
    (p.removeInstruction ref).1 =
      p.updateMethod ref.method fun m => { m with code := m.code.remove ref.insn } := by
  simp only [removeInstruction]
  split
  · exact Or.inr rfl
  · exact Or.inl rfl

theorem records_remove_instruction (target : Target) :
    (p.removeInstruction ref).1.records target = p.records target := by
  rcases remove_instruction_program p ref with same | removed
  · rw [same]
  · rw [removed]
    refine records_update_method p ref.method _ ?_ target
    intro m
    rfl

theorem coded_remove_instruction (coded : p.Coded) : (p.removeInstruction ref).1.Coded := by
  rcases remove_instruction_program p ref with same | removed
  · rw [same]
    exact coded
  · rw [removed]
    intro id m found
    rw [method?_update_method] at found
    by_cases same : ref.method = id
    · rw [if_pos same] at found
      obtain ⟨before, foundBefore, rfl⟩ := Option.map_eq_some_iff.mp found
      exact Stream.fits_remove before.code ref.insn (coded id before foundBefore)
    · rw [if_neg same] at found
      exact coded id m found

theorem lookup?_remove_instruction (context : ClassId) (operand : Operand) :
    (p.removeInstruction ref).1.lookup? (some context) operand =
      p.lookup? (some context) operand := by
  rcases remove_instruction_program p ref with same | removed
  · rw [same]
  · rw [removed]
    exact lookup?_congr p _ rfl (fun _ => rfl) context operand

end Operands

section Batches

variable (p : Program) (refs : List InsnRef)

theorem update_all_frame (f : Operand → Operand) :
    (∀ context operand, (refs.foldl (fun q ref => q.updateOperand ref f) p).lookup? (some context)
      operand = p.lookup? (some context) operand) ∧
    ∀ target, (refs.foldl (fun q ref => q.updateOperand ref f) p).records target =
      p.records target := by
  induction refs generalizing p with
  | nil => exact ⟨fun _ _ => rfl, fun _ => rfl⟩
  | cons ref refs ih =>
      obtain ⟨lookups, records⟩ := ih (p.updateOperand ref f)
      constructor
      · intro context operand
        rw [List.foldl_cons, lookups, lookup?_update_operand]
      · intro target
        rw [List.foldl_cons, records, records_update_operand]

theorem site?_changes (f : Operand → Operand) (settles : ∀ o, f (f o) = f o)
    (step : Program → InsnRef → Program)
    (one : ∀ q ref other, (step q ref).site? other =
      if ref = other then (q.site? other).map fun site => (site.1, f site.2) else q.site? other)
    (other : InsnRef) : (refs.foldl step p).site? other =
      if other ∈ refs then (p.site? other).map fun site => (site.1, f site.2)
      else p.site? other := by
  induction refs generalizing p with
  | nil => rfl
  | cons ref refs ih =>
      rw [List.foldl_cons, ih, one]
      by_cases same : ref = other
      · subst same
        by_cases later : ref ∈ refs <;> simp [later, Function.comp_def, settles]
      · by_cases later : other ∈ refs <;> simp [later, same, Ne.symm same]

theorem site?_update_all (f : Operand → Operand) (settles : ∀ o, f (f o) = f o) (other : InsnRef) :
    (refs.foldl (fun q ref => q.updateOperand ref f) p).site? other =
      if other ∈ refs then (p.site? other).map fun site => (site.1, f site.2)
      else p.site? other :=
  site?_changes p refs f settles _ (fun q ref other => site?_update_operand q ref f other) other

theorem coded_update_all (f : Operand → Operand) (keepsPlain : ∀ o, o.Plain → (f o).Plain)
    (coded : p.Coded) : (refs.foldl (fun q ref => q.updateOperand ref f) p).Coded := by
  induction refs generalizing p with
  | nil => exact coded
  | cons ref refs ih => exact ih _ (coded_update_operand p ref f keepsPlain coded)

theorem remove_instructions_frame (coded : p.Coded) : (p.removeInstructions refs).1.Coded ∧
    (∀ context operand, (p.removeInstructions refs).1.lookup? (some context) operand =
      p.lookup? (some context) operand) ∧
    (∀ target, (p.removeInstructions refs).1.records target = p.records target) ∧
    ∀ other, (p.removeInstructions refs).1.site? other =
      if other ∈ refs then none else p.site? other := by
  rw [remove_instructions_program]
  induction refs generalizing p with
  | nil => exact ⟨coded, fun _ _ => rfl, fun _ => rfl, fun _ => rfl⟩
  | cons ref refs ih =>
      obtain ⟨fits, lookups, records, sites⟩ := ih (p.removeInstruction ref).1
        (coded_remove_instruction p ref coded)
      refine ⟨fits, ?_, ?_, ?_⟩
      · intro context operand
        rw [List.foldl_cons, lookups, lookup?_remove_instruction]
      · intro target
        rw [List.foldl_cons, records, records_remove_instruction]
      · intro other
        rw [List.foldl_cons, sites, site?_remove_instruction p ref coded]
        by_cases same : ref = other
        · simp [same]
        · simp [same, Ne.symm same]

end Batches

section Members

variable (p : Program)

theorem super?_detach_field (id : FieldId) (owner : ClassId) (key : String) (c : ClassId) :
    (p.detachField id owner key).super? c = p.super? c := by
  refine super?_update_class (p.updateIndex (·.eraseField key id)) owner _ ?_ c
  intro _
  rfl

theorem super?_detach_method (id : MethodId) (owner : ClassId) (key : String) (c : ClassId) :
    (p.detachMethod id owner key).super? c = p.super? c := by
  refine super?_update_class (p.updateIndex (·.eraseMethod key id)) owner _ ?_ c
  intro _
  rfl

theorem super?_place_field (id : FieldId) (owner : ClassId) (key : String) (field : Field)
    (c : ClassId) : (p.placeField id owner key field).super? c = p.super? c := by
  refine super?_update_class { p with
    fields := p.fields.insert id { field with owner }, index := p.index.insertField key id }
    owner _ ?_ c
  intro _
  rfl

theorem super?_place_method (id : MethodId) (owner : ClassId) (key : String) (method : Method)
    (c : ClassId) : (p.placeMethod id owner key method).super? c = p.super? c := by
  refine super?_update_class { p with
    methods := p.methods.insert id { method with owner }, index := p.index.insertMethod key id }
    owner _ ?_ c
  intro _
  rfl

theorem records_detach_field (id : FieldId) (owner : ClassId) (key : String) (target : Target) :
    (p.detachField id owner key).records target =
      if target = .field id then .empty else p.records target := by
  cases target with
  | method _ => rfl
  | «class» c =>
      refine records_update_class (p.updateIndex (·.eraseField key id)) owner _ ?_ (.class c)
      intro _
      rfl
  | field other =>
      have stored := Table.get?_erase p.fields id other
      change (((p.fields.erase id).get? other).map (·.references)).getD .empty = _
      rw [stored]
      by_cases same : id = other
      · simp [same]
      · rw [if_neg same, if_neg fun eq => same (Target.field.inj eq).symm]
        rfl

theorem records_detach_method (id : MethodId) (owner : ClassId) (key : String) (target : Target) :
    (p.detachMethod id owner key).records target =
      if target = .method id then .empty else p.records target := by
  cases target with
  | field _ => rfl
  | «class» c =>
      refine records_update_class (p.updateIndex (·.eraseMethod key id)) owner _ ?_ (.class c)
      intro _
      rfl
  | method other =>
      have stored := Table.get?_erase p.methods id other
      change (((p.methods.erase id).get? other).map (·.invocations)).getD .empty = _
      rw [stored]
      by_cases same : id = other
      · simp [same]
      · rw [if_neg same, if_neg fun eq => same (Target.method.inj eq).symm]
        rfl

theorem records_place_field (id : FieldId) (owner : ClassId) (key : String) (field : Field)
    (target : Target) : (p.placeField id owner key field).records target =
      if target = .field id then field.references else p.records target := by
  cases target with
  | method _ => rfl
  | «class» c =>
      refine records_update_class { p with
        fields := p.fields.insert id { field with owner }, index := p.index.insertField key id }
        owner _ ?_ (.class c)
      intro _
      rfl
  | field other =>
      have stored := Table.get?_insert p.fields id other { field with owner }
      change (((p.fields.insert id { field with owner }).get? other).map (·.references)).getD .empty = _
      rw [stored]
      by_cases same : id = other
      · simp [same]
      · rw [if_neg same, if_neg fun eq => same (Target.field.inj eq).symm]
        rfl

theorem records_place_method (id : MethodId) (owner : ClassId) (key : String) (method : Method)
    (target : Target) : (p.placeMethod id owner key method).records target =
      if target = .method id then method.invocations else p.records target := by
  cases target with
  | field _ => rfl
  | «class» c =>
      refine records_update_class { p with
        methods := p.methods.insert id { method with owner }, index := p.index.insertMethod key id }
        owner _ ?_ (.class c)
      intro _
      rfl
  | method other =>
      have stored := Table.get?_insert p.methods id other { method with owner }
      change (((p.methods.insert id { method with owner }).get? other).map (·.invocations)).getD
        .empty = _
      rw [stored]
      by_cases same : id = other
      · simp [same]
      · rw [if_neg same, if_neg fun eq => same (Target.method.inj eq).symm]
        rfl

theorem method?_detach_method (id : MethodId) (owner : ClassId) (key : String) (other : MethodId) :
    (p.detachMethod id owner key).method? other = if id = other then none else p.method? other :=
  Table.get?_erase p.methods id other

theorem method?_place_method (id : MethodId) (owner : ClassId) (key : String) (method : Method)
    (other : MethodId) : (p.placeMethod id owner key method).method? other =
      if id = other then some { method with owner } else p.method? other :=
  Table.get?_insert p.methods id other { method with owner }

theorem site?_detach_method (id : MethodId) (owner : ClassId) (key : String) (ref : InsnRef)
    (elsewhere : ref.method ≠ id) : (p.detachMethod id owner key).site? ref = p.site? ref := by
  rw [site?, method?_detach_method, if_neg (Ne.symm elsewhere)]
  rfl

theorem site?_place_method (id : MethodId) (owner : ClassId) (key : String) (method : Method)
    (ref : InsnRef) (elsewhere : ref.method ≠ id) :
    (p.placeMethod id owner key method).site? ref = p.site? ref := by
  rw [site?, method?_place_method, if_neg (Ne.symm elsewhere)]
  rfl

theorem coded_detach_method (id : MethodId) (owner : ClassId) (key : String) (coded : p.Coded) :
    (p.detachMethod id owner key).Coded := by
  intro other m found
  rw [method?_detach_method] at found
  by_cases same : id = other
  · rw [if_pos same] at found
    cases found
  · rw [if_neg same] at found
    exact coded other m found

theorem coded_place_method (id : MethodId) (owner : ClassId) (key : String) (method : Method)
    (coded : p.Coded) (fits : method.code.Fits) : (p.placeMethod id owner key method).Coded := by
  intro other m found
  rw [method?_place_method] at found
  by_cases same : id = other
  · rw [if_pos same] at found
    cases found
    exact fits
  · rw [if_neg same] at found
    exact coded other m found

end Members

theorem lookup?_kept (p q : Program) (context : ClassId) (operand : Operand) (target gone : Target)
    (supers : ∀ c, q.super? c = p.super? c) (classes : q.index.classes = p.index.classes)
    (fields : ∀ key id, p.findFieldKey? key = some id → Target.field id ≠ gone →
      q.findFieldKey? key = some id)
    (methods : ∀ key id, p.findMethodKey? key = some id → Target.method id ≠ gone →
      q.findMethodKey? key = some id)
    (unseen : ∀ u id, operand = .field u → target = .field id → p.findFieldKey? u.key = none →
      q.findFieldKey? u.key = none)
    (named : p.lookup? (some context) operand = some target) (other : target ≠ gone) :
    q.lookup? (some context) operand = some target := by
  have classLookup : ∀ o : Operand, (o.referencedClass?.bind ClassName.element?).bind q.findClass? =
      (o.referencedClass?.bind ClassName.element?).bind p.findClass? := by
    intro o
    unfold findClass?
    rw [classes]
  cases operand with
  | field u =>
      simp only [lookup?] at named ⊢
      cases direct : p.findFieldKey? u.key with
      | some id =>
          rw [direct] at named
          cases named
          rw [fields u.key id direct other]
      | none =>
          rw [direct] at named
          obtain ⟨id, inherited, rfl⟩ := Option.map_eq_some_iff.mp named
          rw [unseen u id rfl rfl direct]
          rw [inherited_field?_eq] at inherited
          obtain ⟨superName, isSuper, found⟩ := Option.bind_eq_some_iff.mp inherited
          have kept : q.inheritedField? (some context) u.name = some id := by
            rw [inherited_field?_eq, supers, isSuper]
            exact fields _ id found other
          rw [kept]
          rfl
  | call c =>
      simp only [lookup?] at named ⊢
      obtain ⟨id, found, rfl⟩ := Option.map_eq_some_iff.mp named
      rw [methods c.key id found other]
      rfl
  | label _ | simple | int _ | var _ | increment _ _ | constant _ | jump _ | switch _ _
  | dynamicCall _ | type _ | newArray _ | multiArray _ _ =>
      simp only [lookup?] at named ⊢
      rw [classLookup]
      exact named

end Program

end JvmEdit
