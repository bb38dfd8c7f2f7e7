import JvmEdit.Libraries.Standard
import JvmEdit.Proofs.References.Ready
import JvmEdit.Proofs.References.Sweeps
set_option autoImplicit false

namespace JvmEdit

-- What decides which entities a method's instructions name.
def Method.body (m : Method) : ClassId × Stream := (m.owner, m.code)

namespace Program

def body? (p : Program) (n : MethodId) : Option (ClassId × Stream) := (p.method? n).map Method.body

theorem holds_iff_target? (p : Program) (sound : p.Sound) (complete : p.Complete) (target : Target)
    (ref : InsnRef) : p.Holds target ref ↔ p.target? ref = some target :=
  ⟨sound target ref, complete target ref⟩

section Lookups

variable (p q : Program) (gone : Target)

-- The index has lost the rows that lead to one entity; nothing else that decides what is named changed.
structure Loses : Prop where
  supers : ∀ c, q.super? c = p.super? c
  classes : q.index.classes = p.index.classes
  fields : ∀ key, q.findFieldKey? key = (p.findFieldKey? key).filter (Target.field · ≠ gone)
  methods : ∀ key, q.findMethodKey? key = (p.findMethodKey? key).filter (Target.method · ≠ gone)

variable {p q gone}

theorem Loses.inherited (loses : Loses p q gone) (context : ClassId) (name : String) :
    q.inheritedField? (some context) name =
      (p.inheritedField? (some context) name).filter (Target.field · ≠ gone) := by
  rw [inherited_field?_eq, inherited_field?_eq, loses.supers]
  cases p.super? context with
  | none => rfl
  | some superName => exact loses.fields _

theorem Loses.lookup? (loses : Loses p q gone) (context : ClassId) (operand : Operand)
    (other : p.lookup? (some context) operand ≠ some gone) :
    q.lookup? (some context) operand = p.lookup? (some context) operand := by
  have classes : q.findClass? = p.findClass? := by
    unfold findClass?
    rw [loses.classes]
  cases operand with
  | field u =>
      rw [lookup?_use] at other
      rw [lookup?_use, lookup?_use, loses.fields, loses.inherited]
      cases direct : p.findFieldKey? u.key with
      | some id =>
          have differ : Target.field id ≠ gone := by simpa [direct] using other
          simp [differ]
      | none =>
          cases inherited : p.inheritedField? (some context) u.name with
          | none => rfl
          | some id =>
              have differ : Target.field id ≠ gone := by simpa [direct, inherited] using other
              simp [differ]
  | call c =>
      simp only [Program.lookup?] at other ⊢
      rw [loses.methods]
      cases found : p.findMethodKey? c.key with
      | none => rfl
      | some id =>
          have differ : Target.method id ≠ gone := by simpa [found] using other
          simp [differ]
  | label _ | simple | int _ | var _ | increment _ _ | constant _ | jump _ | switch _ _
  | dynamicCall _ | type _ | newArray _ | multiArray _ _ =>
      simp only [Program.lookup?, classes]

end Lookups

section Cuts

-- The program has lost one member together with the instructions that were recorded with it.
structure Cuts (p q : Program) (gone : Target) : Prop where
  loses : Loses p q gone
  member : ∀ id, gone ≠ .class id
  bodies : ∀ n, q.body? n = if gone = .method n then none else
    (p.body? n).map fun body => (body.1, body.2.retain fun i => !decide (p.Holds gone ⟨n, i.id⟩))
  records : ∀ target ref, q.Holds target ref ↔
    p.Holds target ref ∧ target ≠ gone ∧ gone ≠ .method ref.method

-- What a deletion leaves of the code and of the records.
structure Erased (p q : Program) (gone : Target) : Prop where
  -- Every other method keeps the instructions that did not name the deleted member, in their order.
  streams : ∀ n m, p.method? n = some m → gone ≠ .method n → ∃ m', q.method? n = some m' ∧
    m'.code = m.code.retain fun i => p.lookup? (some m.owner) i.operand ≠ some gone
  left : ∀ n, (q.method? n).isSome ↔ (p.method? n).isSome ∧ gone ≠ .method n
  resolved : ∀ ref, (q.instruction? ref).isSome → q.target? ref = p.target? ref
  unnamed : ∀ ref, q.target? ref ≠ some gone
  records : ∀ target ref, q.Holds target ref ↔
    p.Holds target ref ∧ target ≠ gone ∧ gone ≠ .method ref.method
  sound : q.Sound
  complete : q.Complete

structure FieldErased (p q : Program) (id : FieldId) (f : Field) (owner : String) : Prop
    extends Erased p q (.field id) where
  dead : q.field? id = none
  keys : ∀ key, q.findFieldKey? key =
    if key = Key.field owner f.name then none else p.findFieldKey? key
  lists : ∀ c, q.classNaming? c = (p.classNaming? c).map fun naming =>
    if c = f.owner then { naming with fields := naming.fields.filter (· ≠ id) } else naming

structure MethodErased (p q : Program) (id : MethodId) (m : Method) (owner : String) : Prop
    extends Erased p q (.method id) where
  dead : q.method? id = none
  keys : ∀ key, q.findMethodKey? key =
    if key = Key.method owner m.name m.descriptor then none else p.findMethodKey? key
  lists : ∀ c, q.classNaming? c = (p.classNaming? c).map fun naming =>
    if c = m.owner then { naming with methods := naming.methods.filter (· ≠ id) } else naming

variable (p q : Program) (gone : Target)

theorem site?_body (ref : InsnRef) : p.site? ref = (p.body? ref.method).bind fun body =>
    (body.2.get? ref.insn).map fun i => (body.1, i.operand) := by
  rw [site?, body?, Option.bind_map]
  rfl

theorem is_some_instruction? (ref : InsnRef) : (p.instruction? ref).isSome = (p.site? ref).isSome := by
  rw [instruction?, site?]
  cases p.method? ref.method with
  | none => rfl
  | some m => simp

variable {p q gone}

theorem Cuts.site? (cuts : Cuts p q gone) (ref : InsnRef) : q.site? ref =
    if p.Holds gone ref ∨ gone = .method ref.method then none else p.site? ref := by
  rw [site?_body, site?_body, cuts.bodies]
  by_cases own : gone = .method ref.method
  · rw [if_pos own, if_pos (Or.inr own)]
    rfl
  · rw [if_neg own, Option.bind_map]
    cases p.body? ref.method with
    | none => simp
    | some body =>
        have kept := body.2.get?_retain (fun insn => !decide (p.Holds gone ⟨ref.method, insn⟩)) ref.insn
        by_cases held : p.Holds gone ref
        · rw [if_pos (Or.inl held), Option.bind_some, Function.comp_apply, kept]
          simp [held]
        · rw [if_neg (not_or.mpr ⟨held, own⟩), Option.bind_some, Function.comp_apply, kept]
          simp [held]

theorem Cuts.target? (cuts : Cuts p q gone) (complete : p.Complete) (ref : InsnRef) :
    q.target? ref =
      if p.Holds gone ref ∨ gone = .method ref.method then none else p.target? ref := by
  rw [target?_eq, cuts.site?]
  split
  · rfl
  · rename_i stays
    rw [target?_eq]
    cases site : p.site? ref with
    | none => rfl
    | some place =>
        have other : p.lookup? (some place.1) place.2 ≠ some gone := by
          intro named
          refine stays (Or.inl (complete gone ref ?_))
          rw [target?_eq, site]
          exact named
        exact cuts.loses.lookup? place.1 place.2 other

theorem Cuts.erased (cuts : Cuts p q gone) (sound : p.Sound) (complete : p.Complete) (coded : p.Coded) :
    Erased p q gone := by
  have exact := holds_iff_target? p sound complete
  have targets := cuts.target? complete
  refine ⟨?_, ?_, ?_, ?_, cuts.records, ?_, ?_⟩
  · intro n m live other
    have bodies := cuts.bodies n
    rw [if_neg other, body?, body?, live, Option.map_some, Option.map_some] at bodies
    obtain ⟨m', live', same⟩ := Option.map_eq_some_iff.mp bodies
    refine ⟨m', live', (congrArg Prod.snd same).trans (congrArg Stream.mk ?_)⟩
    apply List.filter_congr
    intro i member
    have named : p.target? ⟨n, i.id⟩ = p.lookup? (some m.owner) i.operand := by
      rw [Program.target?, live, Option.bind_some, Stream.get?_of_mem m.code i (coded n m live).unique member,
        Option.bind_some]
    simp only [exact, named, decide_not]
  · intro n
    have bodies := congrArg Option.isSome (cuts.bodies n)
    rw [body?, Option.isSome_map] at bodies
    rw [bodies]
    by_cases own : gone = .method n
    · simp [own]
    · simp [own, body?]
  · intro ref left
    rw [is_some_instruction?, cuts.site?] at left
    rw [targets]
    split at left
    · cases left
    · rename_i stays
      rw [if_neg stays]
  · intro ref named
    rw [targets] at named
    split at named
    · cases named
    · rename_i stays
      exact stays (Or.inl ((exact gone ref).mpr named))
  · intro target ref held
    obtain ⟨before, other, elsewhere⟩ := (cuts.records target ref).mp held
    rw [targets, if_neg]
    · exact sound target ref before
    · intro either
      rcases either with gone | own
      · exact other (sound.only _ _ ref before gone)
      · exact elsewhere own
  · intro target ref named
    rw [targets] at named
    split at named
    · cases named
    · rename_i stays
      have before := (exact target ref).mpr named
      refine (cuts.records target ref).mpr ⟨before, fun same => stays (Or.inl (same ▸ before)), ?_⟩
      exact fun own => stays (Or.inr own)

end Cuts

section Steps

variable (p : Program)

theorem body?_update_method (id : MethodId) (f : Method → Method) (keeps : ∀ m, (f m).body = m.body)
    (n : MethodId) : (p.updateMethod id f).body? n = p.body? n := by
  rw [body?, method?_update_method, body?]
  by_cases same : id = n
  · rw [if_pos same, Option.map_map]
    exact congrArg (Option.map · _) (funext keeps)
  · rw [if_neg same]

theorem body?_refresh [Libraries] (ids : List MethodId) (n : MethodId) :
    (p.refresh ids).value.body? n = p.body? n := by
  rw [refresh_program]
  refine List.foldlRecOn (motive := fun q : Program => q.body? n = p.body? n) ids _ rfl ?_
  intro q same id _
  have located := body?_update_method q id Method.collectLocals (fun _ => rfl) n
  have graphed := body?_update_method (q.updateMethod id Method.collectLocals) id Method.withGraph
    (fun _ => rfl) n
  exact (graphed.trans located).trans same

theorem records_refresh [Libraries] (ids : List MethodId) (target : Target) :
    (p.refresh ids).value.records target = p.records target := by
  rw [refresh_program]
  refine List.foldlRecOn (motive := fun q : Program => q.records target = p.records target) ids _ rfl ?_
  exact fun q same id _ => (records_refresh_method q id target).trans same

theorem body?_remove_instructions (coded : p.Coded) (refs : List InsnRef) (n : MethodId) :
    (p.removeInstructions refs).1.body? n = (p.body? n).map fun body =>
      (body.1, body.2.retain fun i => !decide ((⟨n, i.id⟩ : InsnRef) ∈ refs)) := by
  rw [body?, method?_remove_instructions p coded, body?, Option.map_map, Option.map_map]
  rfl

theorem body?_forget_references (id : MethodId) (context : ClassId) (n : MethodId) :
    (p.forgetReferences id context).body? n = p.body? n := by
  have rows := congrArg (Option.map Method.body)
    (method?_of_bare p _ (bare_forget_references p id context) n)
  rw [Option.map_map, Option.map_map] at rows
  exact rows

theorem Cuts.refresh [Libraries] {p q : Program} {gone : Target} (cuts : Cuts p q gone)
    (ids : List MethodId) : Cuts p (q.refresh ids).value gone := by
  have same := same_sites_refresh q ids
  have index : (q.refresh ids).value.index = q.index := same.index
  refine ⟨⟨?_, ?_, ?_, ?_⟩, cuts.member, ?_, ?_⟩
  · exact fun c => (same.supers c).trans (cuts.loses.supers c)
  · rw [index, cuts.loses.classes]
  · intro key
    rw [findFieldKey?, index]
    exact cuts.loses.fields key
  · intro key
    rw [findMethodKey?, index]
    exact cuts.loses.methods key
  · intro n
    rw [body?_refresh, cuts.bodies]
  · intro target ref
    rw [Holds, records_refresh]
    exact cuts.records target ref

end Steps

theorem erased_eq_filter {α : Type} [DecidableEq α] (find : String → Option α) (id : α) (old : String)
    (held : ∀ key, find key = some id ↔ key = old) (key : String) :
    (if old = key ∧ find old = some id then none else find key) = (find key).filter (· ≠ id) := by
  by_cases own : key = old
  · rw [if_pos ⟨own.symm, (held old).mpr rfl⟩, (held key).mpr own]
    simp [Option.filter_some]
  · rw [if_neg fun both => own both.1.symm]
    cases found : find key with
    | none => rfl
    | some i =>
        have differ : i ≠ id := fun same => own ((held key).mp (same ▸ found))
        simp [Option.filter_some, differ]

theorem filter_always {α : Type} (entity : Option α) (keep : α → Bool) (always : ∀ a, keep a = true) :
    entity.filter keep = entity := by
  cases entity with
  | none => rfl
  | some a => rw [Option.filter_some, if_pos (always a)]

theorem remove_instructions_classes (p : Program) (refs : List InsnRef) :
    (p.removeInstructions refs).1.classes = p.classes := by
  rw [remove_instructions_program]
  refine List.foldlRecOn (motive := fun q : Program => q.classes = p.classes) refs _ rfl ?_
  intro q same ref _
  rcases remove_instruction_program q ref with kept | removed
  · rw [kept, same]
  · rw [removed]
    exact same

section Deletions

variable (p : Program) (bound : p.Bound)

include bound

theorem cuts_field (id : FieldId) (f : Field) (owner : String) (found : p.field? id = some f)
    (live : p.className? f.owner = some owner) :
    Cuts p ((p.removeInstructions f.references.toList).1.detachField id f.owner (Key.field owner f.name))
      (.field id) := by
  let removed := p.removeInstructions f.references.toList
  obtain ⟨_, _, records, _⟩ := remove_instructions_frame p f.references.toList bound.coded
  have index : removed.1.index = p.index := (same_names_remove_instructions p _).index
  have held := fun key => bound.indexed.find_field_key p id f owner key found live
  refine ⟨⟨?_, ?_, ?_, ?_⟩, ?_, ?_, ?_⟩
  · intro c
    rw [super?_detach_field, super?, class?, remove_instructions_classes]
    rfl
  · change removed.1.index.classes = _
    rw [index]
  · intro key
    rw [find_field_key?_detach, (finds_of_index index).2.1]
    simpa using erased_eq_filter p.findFieldKey? id _ held key
  · intro key
    refine (congrArg (fun x : NameIndex => x.methods.get? key) index).trans ?_
    exact (filter_always _ _ fun _ => by simp).symm
  · exact fun _ same => by cases same
  · intro n
    refine (body?_remove_instructions p bound.coded f.references.toList n).trans ?_
    simp only [mem_references p _ id f found, reduceCtorEq, if_false]
  · intro target ref
    rw [Holds, records_detach_field, records]
    by_cases own : target = .field id
    · simp [own, OrderedSet.not_mem_empty]
    · simp [own, Holds]

theorem cuts_method (id : MethodId) (m : Method) (owner : String) (found : p.method? id = some m)
    (live : p.className? m.owner = some owner) :
    Cuts p (((p.forgetReferences id m.owner).removeInstructions
      (m.invocations.toList.filter (·.method ≠ id))).1.detachMethod id m.owner
        (Key.method owner m.name m.descriptor)) (.method id) := by
  have forgotten := forget_references_frame p id m.owner
  have coded := forgotten.coded bound.coded
  let callers := m.invocations.toList.filter (·.method ≠ id)
  obtain ⟨_, _, records, _⟩ := remove_instructions_frame (p.forgetReferences id m.owner) callers coded
  let removed := (p.forgetReferences id m.owner).removeInstructions callers
  have index : removed.1.index = p.index :=
    (same_names_remove_instructions _ callers).index.trans forgotten.index
  have held := fun key => bound.indexed.find_method_key p id m owner key found live
  refine ⟨⟨?_, ?_, ?_, ?_⟩, ?_, ?_, ?_⟩
  · intro c
    rw [super?_detach_method, super?, class?, remove_instructions_classes]
    exact forgotten.supers c
  · change removed.1.index.classes = _
    rw [index]
  · intro key
    refine (congrArg (fun x : NameIndex => x.fields.get? key) index).trans ?_
    exact (filter_always _ _ fun _ => by simp).symm
  · intro key
    rw [find_method_key?_detach, (finds_of_index index).2.2]
    simpa using erased_eq_filter p.findMethodKey? id _ held key
  · exact fun _ same => by cases same
  · intro n
    rw [body?, method?_detach_method]
    by_cases own : id = n
    · simp [own]
    · rw [if_neg own, if_neg fun same => own (Target.method.inj same)]
      refine (body?_remove_instructions _ coded callers n).trans ?_
      have called : ∀ insn, (⟨n, insn⟩ : InsnRef) ∈ callers ↔ p.Holds (.method id) ⟨n, insn⟩ := by
        intro insn
        rw [List.mem_filter, mem_invocations p _ id m found]
        simp [Ne.symm own]
      rw [body?_forget_references]
      simp only [called]
  · intro target ref
    rw [Holds, records_detach_method, records]
    by_cases own : target = .method id
    · simp [own, OrderedSet.not_mem_empty]
    · have kept := holds_forget_references_iff p id m bound.sound found target ref
      rw [if_neg own, ← Holds, kept]
      simp [own, eq_comm]

variable (complete : p.Complete)

include complete

theorem delete_field_erases [Libraries] (id : FieldId) (f : Field) (found : p.field? id = some f) :
    ∃ q owner, p.deleteField id = .ok q ∧ p.className? f.owner = some owner ∧
      FieldErased p q.value id f owner := by
  obtain ⟨owner, live⟩ := bound.indexed.is_owned.fields id f found
  refine ⟨_, owner, delete_field_eq p id f owner found live, live, ?_⟩
  let removed := p.removeInstructions f.references.toList
  let cut := removed.1.detachField id f.owner (Key.field owner f.name)
  have cuts : Cuts p (cut.refresh removed.2.toList).value (.field id) :=
    (cuts_field p bound id f owner found live).refresh removed.2.toList
  have names := same_names_refresh cut removed.2.toList
  have namesBefore := same_names_remove_instructions p f.references.toList
  refine ⟨cuts.erased bound.sound complete bound.coded, ?_, ?_, ?_⟩
  · have dead : cut.field? id = none := (Table.get?_erase removed.1.fields id id).trans (if_pos rfl)
    have same := names.fields id
    rw [fieldNaming?, fieldNaming?, dead] at same
    exact Option.map_eq_none_iff.mp same
  · intro key
    have held := (bound.indexed.find_field_key p id f owner _ found live).mpr rfl
    have rows : removed.1.findFieldKey? = p.findFieldKey? := (finds_of_index namesBefore.index).2.1
    rw [findFieldKey?, names.index]
    refine (find_field_key?_detach removed.1 id f.owner _ key).trans ?_
    simp only [rows, held, and_true, eq_comm]
  · intro c
    rw [names.classes, class_naming?_detach_field, namesBefore.classes]

theorem delete_method_erases [Libraries] (id : MethodId) (m : Method) (found : p.method? id = some m) :
    ∃ q owner, p.deleteMethod id = .ok q ∧ p.className? m.owner = some owner ∧
      MethodErased p q.value id m owner := by
  obtain ⟨owner, live⟩ := bound.indexed.is_owned.methods id m found
  refine ⟨_, owner, delete_method_eq p id m owner found live, live, ?_⟩
  let callers := m.invocations.toList.filter (·.method ≠ id)
  let removed := (p.forgetReferences id m.owner).removeInstructions callers
  let cut := removed.1.detachMethod id m.owner (Key.method owner m.name m.descriptor)
  have cuts : Cuts p (cut.refresh (removed.2.erase id).toList).value (.method id) :=
    (cuts_method p bound id m owner found live).refresh (removed.2.erase id).toList
  have names := same_names_refresh cut (removed.2.erase id).toList
  have namesBefore : SameNames p removed.1 := (same_names_forget_references p id m.owner).trans
    (same_names_remove_instructions (p.forgetReferences id m.owner) callers)
  refine ⟨cuts.erased bound.sound complete bound.coded, ?_, ?_, ?_⟩
  · have dead : cut.method? id = none := (method?_detach_method removed.1 id _ _ id).trans (if_pos rfl)
    have same := names.methods id
    rw [methodNaming?, methodNaming?, dead] at same
    exact Option.map_eq_none_iff.mp same
  · intro key
    have held := (bound.indexed.find_method_key p id m owner _ found live).mpr rfl
    have rows : removed.1.findMethodKey? = p.findMethodKey? := (finds_of_index namesBefore.index).2.2
    rw [findMethodKey?, names.index]
    refine (find_method_key?_detach removed.1 id m.owner _ key).trans ?_
    simp only [rows, held, and_true, eq_comm]
  · intro c
    rw [names.classes, class_naming?_detach_method, namesBefore.classes]

end Deletions

-- Deleting a live member never fails, and takes out exactly what refers to the member.
theorem deletions_erase [Libraries] (p : Program) (bound : p.Bound) (complete : p.Complete) :
    (∀ id f, p.field? id = some f → ∃ q owner, p.deleteField id = .ok q ∧
      p.className? f.owner = some owner ∧ FieldErased p q.value id f owner) ∧
    ∀ id m, p.method? id = some m → ∃ q owner, p.deleteMethod id = .ok q ∧
      p.className? m.owner = some owner ∧ MethodErased p q.value id m owner :=
  ⟨delete_field_erases p bound complete, delete_method_erases p bound complete⟩

end Program

namespace Session

open Program

-- The subclass loses the instruction that reads the inherited field and keeps the other two.
theorem deletions_erase_child : (ready {} baseAndChild).Bound ∧ (ready {} baseAndChild).Complete ∧
    ∃ q, (ready {} baseAndChild).deleteField ⟨2⟩ = .ok q ∧ q.value.field? ⟨2⟩ = none ∧
      ∃ m, q.value.method? ⟨5⟩ = some m ∧ m.code.toList.map (·.id) = [⟨7⟩, ⟨8⟩] := by
  obtain ⟨bound, complete⟩ := bound_complete_ready {} baseAndChild (by decide)
  obtain ⟨q, _, done, _, erased⟩ := (deletions_erase _ bound complete).1 ⟨2⟩ _ rfl
  obtain ⟨m, live, code⟩ := erased.streams ⟨5⟩ _ rfl (by simp)
  refine ⟨bound, complete, q, done, erased.dead, m, live, ?_⟩
  rw [code]
  decide

end Session

end JvmEdit
