import JvmEdit.Proofs.Index.Session
import JvmEdit.Proofs.References.Steps
set_option autoImplicit false

namespace JvmEdit

namespace Program

-- A program whose index is exact and whose records are sound.
structure Bound (p : Program) : Prop where
  indexed : p.Indexed
  sound : p.Sound
  coded : p.Coded

theorem lookup?_use (p : Program) (context : ClassId) (u : FieldUse) :
    p.lookup? (some context) (.field u) =
      ((p.findFieldKey? u.key).or (p.inheritedField? (some context) u.name)).map .field := by
  rw [lookup?]
  cases p.findFieldKey? u.key with
  | none => rfl
  | some id => rfl

theorem lookup?_field (p : Program) (context : ClassId) (operand : Operand) (id : FieldId)
    (named : p.lookup? (some context) operand = some (.field id)) : ∃ u, operand = .field u ∧
      (p.findFieldKey? u.key = some id ∨ p.findFieldKey? u.key = none ∧
        ∃ superName, p.super? context = some superName ∧
          p.findFieldKey? (Key.field superName u.name) = some id) := by
  cases operand with
  | field u =>
      refine ⟨u, rfl, ?_⟩
      rw [lookup?_use] at named
      cases direct : p.findFieldKey? u.key with
      | some other =>
          rw [direct] at named
          cases named
          exact Or.inl rfl
      | none =>
          rw [direct] at named
          obtain ⟨other, inherited, isField⟩ := Option.map_eq_some_iff.mp named
          cases isField
          rw [inherited_field?_eq] at inherited
          obtain ⟨superName, isSuper, found⟩ := Option.bind_eq_some_iff.mp inherited
          exact Or.inr ⟨rfl, superName, isSuper, found⟩
  | call c =>
      simp only [lookup?] at named
      obtain ⟨_, _, isField⟩ := Option.map_eq_some_iff.mp named
      cases isField
  | label _ | simple | int _ | var _ | increment _ _ | constant _ | jump _ | switch _ _
  | dynamicCall _ | type _ | newArray _ | multiArray _ _ =>
      simp only [lookup?] at named
      obtain ⟨_, _, isField⟩ := Option.map_eq_some_iff.mp named
      cases isField

theorem lookup?_method (p : Program) (context : ClassId) (operand : Operand) (id : MethodId)
    (named : p.lookup? (some context) operand = some (.method id)) :
    ∃ c, operand = .call c ∧ p.findMethodKey? c.key = some id := by
  cases operand with
  | call c =>
      simp only [lookup?] at named
      obtain ⟨other, found, isMethod⟩ := Option.map_eq_some_iff.mp named
      cases isMethod
      exact ⟨c, rfl, found⟩
  | field u =>
      rw [lookup?_use] at named
      obtain ⟨_, _, isMethod⟩ := Option.map_eq_some_iff.mp named
      cases isMethod
  | label _ | simple | int _ | var _ | increment _ _ | constant _ | jump _ | switch _ _
  | dynamicCall _ | type _ | newArray _ | multiArray _ _ =>
      simp only [lookup?] at named
      obtain ⟨_, _, isMethod⟩ := Option.map_eq_some_iff.mp named
      cases isMethod

theorem lookup?_reference (p : Program) (context : ClassId) (operand : Operand) (text : String)
    (isText : operand.referencedClass? = some text) : p.lookup? (some context) operand =
      ((ClassName.element? text).bind p.findClass?).map .class := by
  have opened : p.lookup? (some context) operand =
      ((operand.referencedClass?.bind ClassName.element?).bind p.findClass?).map .class := by
    cases operand with
    | field _ | call _ => cases isText
    | _ => rfl
  rw [opened, isText, Option.bind_some]

theorem lookup?_class (p : Program) (context : ClassId) (operand : Operand) (id : ClassId)
    (named : p.lookup? (some context) operand = some (.class id)) :
    ∃ text name, operand.referencedClass? = some text ∧ ClassName.element? text = some name ∧
      p.findClass? name = some id := by
  have opened : ((operand.referencedClass?.bind ClassName.element?).bind p.findClass?).map
      Target.class = some (.class id) := by
    cases operand with
    | field u =>
        rw [lookup?_use] at named
        obtain ⟨_, _, isClass⟩ := Option.map_eq_some_iff.mp named
        cases isClass
    | call c =>
        obtain ⟨_, _, isClass⟩ := Option.map_eq_some_iff.mp named
        cases isClass
    | _ => exact named
  obtain ⟨_, found, isClass⟩ := Option.map_eq_some_iff.mp opened
  cases isClass
  obtain ⟨name, element, found⟩ := Option.bind_eq_some_iff.mp found
  obtain ⟨text, isText, element⟩ := Option.bind_eq_some_iff.mp element
  exact ⟨text, name, isText, element, found⟩

theorem is_reference_of_lookup? (p : Program) (context : ClassId) (operand : Operand)
    (target : Target) (named : p.lookup? (some context) operand = some target) :
    operand.isReference = true := by
  cases operand with
  | field _ => rfl
  | call _ => rfl
  | label _ | simple | int _ | var _ | increment _ _ | constant _ | jump _ | switch _ _
  | dynamicCall _ | type _ | newArray _ | multiArray _ _ =>
      simp only [lookup?] at named
      obtain ⟨_, found, _⟩ := Option.map_eq_some_iff.mp named
      obtain ⟨_, found, _⟩ := Option.bind_eq_some_iff.mp found
      obtain ⟨name, found, _⟩ := Option.bind_eq_some_iff.mp found
      simp [Operand.isReference, found]

theorem field_use_at?_site (p : Program) (ref : InsnRef) (context : ClassId) (u : FieldUse)
    (site : p.site? ref = some (context, .field u)) : p.fieldUseAt? ref = some u := by
  obtain ⟨m, live, rest⟩ := Option.bind_eq_some_iff.mp site
  obtain ⟨i, found, pair⟩ := Option.map_eq_some_iff.mp rest
  have operand : i.operand = .field u := congrArg Prod.snd pair
  have stored : p.instruction? ref = some i := by rw [instruction?, live]; exact found
  rw [fieldUseAt?, stored]
  obtain ⟨_, _, _⟩ := i
  cases operand
  rfl

theorem Coded.plain {p : Program} (coded : p.Coded) (ref : InsnRef) (context : ClassId)
    (operand : Operand) (site : p.site? ref = some (context, operand)) : operand.Plain := by
  obtain ⟨m, live, rest⟩ := Option.bind_eq_some_iff.mp site
  obtain ⟨i, found, pair⟩ := Option.map_eq_some_iff.mp rest
  have isOperand : i.operand = operand := congrArg Prod.snd pair
  exact isOperand ▸ (coded ref.method m live).plain i (Stream.mem_of_get? _ _ _ found).1

section Keys

variable (p : Program) (indexed : p.Indexed)

include indexed

theorem Indexed.find_field_key (id : FieldId) (f : Field) (owner key : String)
    (found : p.field? id = some f) (live : p.className? f.owner = some owner) :
    p.findFieldKey? key = some id ↔ key = Key.field owner f.name := by
  obtain ⟨owner', live', held⟩ := indexed.field_key id f found
  cases live.symm.trans live'
  refine (indexed.fields.inverse key id).trans ?_
  change p.fieldKey? id = some key ↔ _
  rw [held, Option.some_inj]
  exact eq_comm

theorem Indexed.find_method_key (id : MethodId) (m : Method) (owner key : String)
    (found : p.method? id = some m) (live : p.className? m.owner = some owner) :
    p.findMethodKey? key = some id ↔ key = Key.method owner m.name m.descriptor := by
  obtain ⟨owner', live', held⟩ := indexed.method_key id m found
  cases live.symm.trans live'
  refine (indexed.methods.inverse key id).trans ?_
  change p.methodKey? id = some key ↔ _
  rw [held, Option.some_inj]
  exact eq_comm

theorem Indexed.plain_owner (id : ClassId) (name : String) (live : p.className? id = some name) :
    Undotted name := by
  rw [class_name_eq] at live
  obtain ⟨naming, found, rfl⟩ := Option.map_eq_some_iff.mp live
  exact indexed.plainClass id naming found

theorem Indexed.plain_field_name (id : FieldId) (f : Field) (found : p.field? id = some f) :
    Undotted f.name :=
  indexed.plainField id f.naming (congrArg (Option.map Field.naming) found)

theorem Indexed.plain_method_name (id : MethodId) (m : Method) (found : p.method? id = some m) :
    Undotted m.name :=
  indexed.plainMethod id m.naming (congrArg (Option.map Method.naming) found)

theorem Indexed.find_field?_iff (id : FieldId) (owner name : String) :
    p.findField? owner name = some id ↔
      ∃ f, p.field? id = some f ∧ p.className? f.owner = some owner ∧ f.name = name := by
  constructor
  · intro found
    obtain ⟨f, holder, live, ownerFound, key⟩ :=
      field_key_live p id _ ((indexed.fields.inverse _ id).mp found)
    have ownerLive : p.className? f.owner = some holder.name := by rw [className?, ownerFound]; rfl
    obtain ⟨rfl, rfl⟩ := Key.field_injective_of_plain _ _ _ _ (indexed.plain_owner p f.owner _ ownerLive)
      (indexed.plain_field_name p id f live) key
    exact ⟨f, live, ownerLive, rfl⟩
  · rintro ⟨f, live, ownerLive, rfl⟩
    exact (indexed.find_field_key p id f owner _ live ownerLive).mpr rfl

end Keys

theorem unbound_of_rebinds (p : Program) (id : FieldId) (owner name : String) (indexed : p.Indexed)
    (plain : Undotted owner) (plainName : Undotted name)
    (checked : p.rebindsInherited id owner name = false) (ref : InsnRef) (context : ClassId)
    (u : FieldUse) (other : FieldId) (differ : other ≠ id)
    (site : p.site? ref = some (context, .field u)) (held : p.Holds (.field other) ref)
    (named : p.lookup? (some context) (.field u) = some (.field other))
    (missing : p.findFieldKey? u.key = none) : u.key ≠ Key.field owner name := by
  intro taken
  obtain ⟨sameOwner, sameName⟩ := Key.field_injective_of_plain _ _ _ _ plain plainName taken
  obtain ⟨_, isField, outcome⟩ := lookup?_field p context _ other named
  cases isField
  rcases outcome with direct | ⟨_, superName, _, found⟩
  · rw [missing] at direct
    cases direct
  · obtain ⟨h, live⟩ : ∃ h, p.field? other = some h := by
      cases live : p.field? other with
      | some h => exact ⟨h, rfl⟩
      | none =>
          rw [Holds, records, live] at held
          exact absurd held (OrderedSet.not_mem_empty ref)
    obtain ⟨otherOwner, otherLive⟩ := indexed.is_owned.fields other h live
    have key := (indexed.find_field_key p other h otherOwner _ live otherLive).mp found
    have names := Key.field_injective_of_plain _ _ _ _ (indexed.plain_owner p _ _ otherLive)
      (indexed.plain_field_name p other h live) key
    have row := Table.mem_of_find _ _ _ live
    have member : ref ∈ h.references.toList := by
      rw [OrderedSet.mem_to_list]
      rw [Holds, records, live] at held
      exact held
    have rebinds : p.rebindsInherited id owner name = true := by
      rw [rebindsInherited, List.any_eq_true]
      refine ⟨(other, h), row, ?_⟩
      have inner : (h.references.toList.any fun ref =>
          (p.fieldUseAt? ref).any fun use => use.owner = owner && use.name = name) = true := by
        rw [List.any_eq_true]
        exact ⟨ref, member, by simp [field_use_at?_site p ref context u site, sameOwner, sameName]⟩
      simp only [Bool.and_eq_true, decide_eq_true_eq]
      exact ⟨⟨differ, names.2.symm.trans sameName⟩, inner⟩
    rw [checked] at rebinds
    cases rebinds

theorem unstolen_of_checked (p : Program) (id : FieldId) (refs : OrderedSet InsnRef) (new : String)
    (checked : p.stolenKey? id refs new = none) (ref : InsnRef) (member : ref ∈ refs) (u : FieldUse)
    (carried : p.fieldUseAt? ref = some u) (other : FieldId)
    (found : p.findFieldKey? (Key.field u.owner new) = some other) : other = id := by
  have passed := List.findSome?_eq_none_iff.mp checked ref ((OrderedSet.mem_to_list _ _).mpr member)
  simp only [carried, found, Option.any_some] at passed
  by_cases same : other = id
  · exact same
  · simp [same] at passed

theorem plain_map_field_use (f : FieldUse → FieldUse)
    (keeps : ∀ u, Undotted u.owner ∧ Undotted u.name → Undotted (f u).owner ∧ Undotted (f u).name)
    (o : Operand) (plain : o.Plain) : (mapFieldUse f o).Plain := by
  cases o with
  | field u => exact keeps u plain
  | _ => exact plain

theorem plain_map_call (f : Call → Call)
    (keeps : ∀ c, Undotted c.owner ∧ Undotted c.name → Undotted (f c).owner ∧ Undotted (f c).name)
    (o : Operand) (plain : o.Plain) : (mapCall f o).Plain := by
  cases o with
  | call c => exact keeps c plain
  | _ => exact plain

section Retarget

variable (p : Program) (f : Operand → Operand)

theorem holds_resolve_instruction (ref : InsnRef) (target : Target) (held : InsnRef)
    (holds : (p.resolveInstruction ref).1.Holds target held) :
    p.Holds target held ∨ (p.target? ref = some target ∧ held = ref) := by
  simp only [resolveInstruction] at holds
  cases found : p.target? ref with
  | none =>
      rw [found] at holds
      exact Or.inl holds
  | some named =>
      rw [found] at holds
      rcases holds_record p named target ref held holds with before | ⟨isTarget, isRef⟩
      · exact Or.inl before
      · exact Or.inr ⟨congrArg some isTarget.symm, isRef⟩

theorem same_sites_resolve_instruction (ref : InsnRef) :
    SameSites p (p.resolveInstruction ref).1 := by
  simp only [resolveInstruction]
  split
  · exact same_sites_record p _ ref
  · exact .refl p

-- Where a recorded instruction is among those to be pointed elsewhere, it is there already.
def Settled (refs : List InsnRef) : Prop :=
  ∀ ref ∈ refs, ∀ target, p.Holds target ref → ∀ context operand,
    p.site? ref = some (context, operand) → f operand = operand

theorem sound_retarget (ref : InsnRef) (sound : p.Sound) (settled : Settled p f [ref]) :
    (p.retarget f ref).Sound := by
  intro target held holds
  rw [retarget, (same_sites_resolve_instruction _ ref).target?]
  rcases holds_resolve_instruction _ ref target held holds with before | ⟨named, rfl⟩
  · rw [Holds, records_update_operand] at before
    have named := sound target held before
    rw [target?_eq] at named ⊢
    rw [site?_update_operand]
    simp only [lookup?_update_operand]
    by_cases same : ref = held
    · subst same
      obtain ⟨⟨context, operand⟩, site, found⟩ := Option.bind_eq_some_iff.mp named
      rw [if_pos rfl, site, Option.map_some, Option.bind_some,
        settled ref (List.mem_singleton.mpr rfl) target before context operand site]
      exact found
    · rw [if_neg same]
      exact named
  · exact named

theorem settled_retarget (refs : List InsnRef) (ref : InsnRef) (settles : ∀ o, f (f o) = f o)
    (settled : Settled p f refs) : Settled (p.retarget f ref) f refs := by
  intro other member target holds context operand site
  rw [retarget, (same_sites_resolve_instruction _ ref).sites, site?_update_operand] at site
  by_cases same : ref = other
  · rw [if_pos same] at site
    obtain ⟨before, _, pair⟩ := Option.map_eq_some_iff.mp site
    cases pair
    exact settles before.2
  · rw [if_neg same] at site
    rcases holds_resolve_instruction _ ref target other holds with before | ⟨_, isRef⟩
    · rw [Holds, records_update_operand] at before
      exact settled other member target before context operand site
    · exact absurd isRef.symm same

theorem coded_retarget (ref : InsnRef) (keepsPlain : ∀ o, o.Plain → (f o).Plain) (coded : p.Coded) :
    (p.retarget f ref).Coded :=
  (same_sites_resolve_instruction _ ref).coded (coded_update_operand p ref f keepsPlain coded)

theorem sound_retargets (refs : List InsnRef) (settles : ∀ o, f (f o) = f o)
    (keepsPlain : ∀ o, o.Plain → (f o).Plain) (sound : p.Sound) (coded : p.Coded)
    (settled : Settled p f refs) :
    (refs.foldl (retarget · f) p).Sound ∧ (refs.foldl (retarget · f) p).Coded := by
  induction refs generalizing p with
  | nil => exact ⟨sound, coded⟩
  | cons ref refs ih =>
      have head : Settled p f [ref] := fun other member =>
        settled other (List.mem_singleton.mp member ▸ List.mem_cons_self)
      have tail : Settled p f refs := fun other member => settled other (List.mem_cons_of_mem _ member)
      exact ih _ (sound_retarget p f ref sound head) (coded_retarget p f ref keepsPlain coded)
        (settled_retarget p f refs ref settles tail)

end Retarget

section Own

variable (p : Program) (id : MethodId)

theorem site?_references_of (m : Method) (coded : p.Coded) (live : p.method? id = some m)
    (i : Instruction) (member : i ∈ p.referencesOf id) :
    p.site? ⟨id, i.id⟩ = some (m.owner, i.operand) := by
  rw [referencesOf, live] at member
  have inCode := (List.mem_filter.mp member).1
  rw [site?, live, Option.bind_some, Stream.get?_of_mem m.code i (coded id m live).unique inCode]
  rfl

theorem sound_resolve_method (sound : p.Sound) (coded : p.Coded) :
    (p.resolveMethod id).1.Sound ∧ (p.resolveMethod id).1.Coded := by
  cases live : p.method? id with
  | none =>
      rw [resolve_method_dead p id live]
      exact ⟨sound, coded⟩
  | some m =>
      rw [resolve_method_program p id m live]
      have sites := site?_references_of p id m coded live
      generalize p.referencesOf id = rows at sites
      clear live
      induction rows generalizing p with
      | nil => exact ⟨sound, coded⟩
      | cons i rows ih =>
          have same := same_sites_remember p m.owner ⟨id, i.id⟩ i.operand
          refine ih _ (sound_remember p m.owner _ i.operand sound (sites i List.mem_cons_self))
            (same.coded coded) ?_
          intro j member
          rw [same.sites]
          exact sites j (List.mem_cons_of_mem _ member)

theorem forget_references_frame (context : ClassId) : SameSites p (p.forgetReferences id context) :=
  .foldl _ (fun q (i : Instruction) => same_sites_forget q context ⟨id, i.id⟩ i.operand) _ p

theorem holds_forgets (context : ClassId) (rows : List Instruction) (target : Target) (ref : InsnRef)
    (holds : (rows.foldl (fun q i => q.forget context ⟨id, i.id⟩ i.operand) p).Holds target ref) :
    p.Holds target ref ∧ ∀ i ∈ rows, ref = ⟨id, i.id⟩ →
      p.lookup? (some context) i.operand ≠ some target := by
  induction rows generalizing p with
  | nil => exact ⟨holds, fun _ member => by cases member⟩
  | cons i rows ih =>
      obtain ⟨after, others⟩ := ih _ holds
      obtain ⟨before, differ⟩ := holds_forget p context ⟨id, i.id⟩ i.operand target ref after
      refine ⟨before, ?_⟩
      intro j member isRef named
      rcases List.mem_cons.mp member with atHead | later
      · subst atHead
        exact differ ⟨named, isRef⟩
      · rw [← (same_sites_forget p context ⟨id, i.id⟩ i.operand).lookup?] at named
        exact others j later isRef named

theorem holds_forget_references (m : Method) (sound : p.Sound) (live : p.method? id = some m)
    (target : Target) (ref : InsnRef) (holds : (p.forgetReferences id m.owner).Holds target ref) :
    p.Holds target ref ∧ ref.method ≠ id := by
  obtain ⟨before, forgotten⟩ := holds_forgets p id m.owner (p.referencesOf id) target ref holds
  refine ⟨before, ?_⟩
  intro own
  obtain ⟨context, operand, site, named⟩ := sound.site target ref before
  obtain ⟨m', live', rest⟩ := Option.bind_eq_some_iff.mp site
  rw [own, live] at live'
  cases live'
  obtain ⟨i, found, pair⟩ := Option.map_eq_some_iff.mp rest
  cases pair
  obtain ⟨inCode, isInsn⟩ := Stream.mem_of_get? _ _ _ found
  have member : i ∈ p.referencesOf id := by
    rw [referencesOf, live]
    exact List.mem_filter.mpr ⟨inCode, is_reference_of_lookup? p m.owner i.operand target named⟩
  refine forgotten i member ?_ named
  obtain ⟨method, insn⟩ := ref
  cases own
  cases isInsn
  rfl

end Own

end Program

end JvmEdit
