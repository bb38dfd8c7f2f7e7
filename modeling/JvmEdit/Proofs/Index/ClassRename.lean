import JvmEdit.Proofs.Index.Exact
import JvmEdit.Proofs.Program.ClassRename
import Mathlib.Data.List.Nodup
set_option autoImplicit false

namespace JvmEdit

theorem Members.agree_rekeyed {μ : Type} [DecidableEq μ] (m n : Members μ) (ids : List μ)
    (old new : μ → String) (agree : m.Agree) (unique : ids.Nodup)
    (live : ∀ i, i ∈ ids ↔ (m.owner? i).isSome) (before : ∀ i ∈ ids, m.key? i = some (old i))
    (after : ∀ i ∈ ids, n.key? i = some (new i)) (keyless : ∀ i, i ∉ ids → n.key? i = none)
    (distinct : ∀ v ∈ ids, ∀ w ∈ ids, new v = new w → v = w)
    (index : n.index = ids.foldl (Table.rekey old new) m.index)
    (owners : ∀ i, n.owner? i = m.owner? i) (lists : ∀ c, n.list? c = m.list? c) : n.Agree := by
  have stands : ∀ key i, m.index.get? key = some i ↔ i ∈ ids ∧ key = old i := by
    intro key i
    rw [agree.inverse key i]
    constructor
    · intro held
      have member : i ∈ ids := (live i).mpr ((agree.owned i).mpr (by rw [held]; rfl))
      exact ⟨member, Option.some.inj (held.symm.trans (before i member))⟩
    · rintro ⟨member, rfl⟩
      exact before i member
  have found := Table.get?_foldl_rekey old new m.index ids stands unique distinct
  refine ⟨index ▸ Table.ordered_foldl_rekey _ _ _ _ agree.ordered, ?_, ?_, ?_⟩
  · intro key i
    rw [index, found]
    by_cases member : i ∈ ids
    · simp [member, after i member, eq_comm]
    · simp [member, keyless i member]
  · intro i
    rw [owners, ← live]
    by_cases member : i ∈ ids
    · simp [member, after i member]
    · simp [member, keyless i member]
  · intro c members listed
    simp only [owners]
    exact agree.listed c members ((lists c).symm.trans listed)

namespace Program

theorem first_repeated?_none (keys seen : List String) (none : firstRepeated? keys seen = none) :
    keys.Nodup ∧ ∀ key ∈ keys, key ∉ seen := by
  induction keys generalizing seen with
  | nil => simp
  | cons key keys ih =>
      rw [firstRepeated?] at none
      by_cases repeated : seen.contains key
      · rw [if_pos repeated] at none
        cases none
      · rw [if_neg repeated] at none
        obtain ⟨unique, apart⟩ := ih (key :: seen) none
        refine ⟨List.nodup_cons.mpr ⟨fun member => apart key member List.mem_cons_self, unique⟩, ?_⟩
        intro other member
        rcases List.mem_cons.mp member with isKey | later
        · subst isKey
          simpa using repeated
        · exact fun seenToo => apart other later (List.mem_cons_of_mem _ seenToo)

section Keys

variable (p : Program) (id : ClassId)

theorem field_key_under_eq (name : String) (field : FieldId) (f : FieldNaming) (owner : String)
    (naming : p.fieldNaming? field = some f) (named : p.nameAfter id name f.owner = some owner) :
    p.fieldKeyUnder id name field = Key.field owner f.name := by
  simp only [fieldKeyUnder, naming, named, Option.getD_some]

theorem method_key_under_eq (name : String) (rewrite : String → String) (method : MethodId)
    (m : MethodNaming) (owner : String) (naming : p.methodNaming? method = some m)
    (named : p.nameAfter id name m.owner = some owner) :
    p.methodKeyUnder id name rewrite method = Key.method owner m.name (rewrite m.descriptor) := by
  simp only [methodKeyUnder, naming, named, Option.getD_some]

theorem name_after_live (name : String) (c : ClassId) (live : (p.className? c).isSome) :
    ∃ owner, p.nameAfter id name c = some owner := by
  by_cases same : c = id
  · exact ⟨name, if_pos same⟩
  · obtain ⟨owner, named⟩ := Option.isSome_iff_exists.mp live
    exact ⟨owner, (if_neg same).trans named⟩

theorem name_after_self (old : String) (live : p.className? id = some old) (c : ClassId) :
    p.nameAfter id old c = p.className? c := by
  by_cases same : c = id
  · rw [nameAfter, if_pos same, same, live]
  · rw [nameAfter, if_neg same]

theorem name_after_injective (indexed : p.Indexed) (new : String) (free : p.findClass? new = none)
    (c c' : ClassId) (name : String) (left : p.nameAfter id new c = some name)
    (right : p.nameAfter id new c' = some name) : c = c' := by
  have unheld : ∀ other, p.className? other ≠ some new := fun other held => by
    rw [findClass?, (indexed.classNames new other).mpr held] at free
    cases free
  simp only [nameAfter] at left right
  by_cases isId : c = id
  · rw [if_pos isId] at left
    cases left
    by_cases isId' : c' = id
    · rw [isId, isId']
    · rw [if_neg isId'] at right
      exact absurd right (unheld c')
  · rw [if_neg isId] at left
    by_cases isId' : c' = id
    · rw [if_pos isId'] at right
      cases right
      exact absurd left (unheld c)
    · rw [if_neg isId'] at right
      exact Table.inverse_unique _ _ indexed.classNames name c c' left right

theorem plain_name_after (indexed : p.Indexed) (new : String) (plain : Undotted new) (c : ClassId)
    (name : String) (named : p.nameAfter id new c = some name) : Undotted name := by
  by_cases same : c = id
  · rw [nameAfter, if_pos same] at named
    cases named
    exact plain
  · rw [nameAfter, if_neg same] at named
    rw [class_name_eq] at named
    obtain ⟨naming, found, rfl⟩ := Option.map_eq_some_iff.mp named
    exact indexed.plainClass c naming found

end Keys

section Renamed

variable (p : Program) (id : ClassId) (r : Renaming)

theorem class_naming?_renamed (c : ClassId) : (p.renamed id r).classNaming? c =
    if id = c then (p.classNaming? c).map fun n => { n with name := r.new }
    else p.classNaming? c := by
  have stored : (p.renamed id r).class? c =
      (((p.unlinkClass id).updateClass id fun c => { c with name := r.new }).class? c).map
        r.classHeader := Table.get?_map_values _ _ _
  have unlinked := (same_names_unlink_class p id).classes c
  rw [classNaming?, stored, class?_update_class, Option.map_map, ← unlinked, classNaming?]
  by_cases same : id = c
  · rw [if_pos same, if_pos same, Option.map_map, Option.map_map]
    rfl
  · rw [if_neg same, if_neg same]
    rfl

theorem field_naming?_renamed (i : FieldId) :
    (p.renamed id r).fieldNaming? i = p.fieldNaming? i := by
  have stored : (p.renamed id r).field? i = (p.field? i).map r.fieldText := Table.get?_map_values _ _ _
  rw [fieldNaming?, stored, Option.map_map]
  rfl

theorem method_naming?_renamed (i : MethodId) : (p.renamed id r).methodNaming? i =
    (p.methodNaming? i).map fun m => { m with descriptor := r.descriptor m.descriptor } := by
  have stored : (p.renamed id r).method? i = (p.method? i).map r.methodText :=
    Table.get?_map_values _ _ _
  rw [methodNaming?, stored, Option.map_map, methodNaming?, Option.map_map]
  rfl

theorem field_key?_renamed (live : p.className? id = some r.old) (i : FieldId) :
    (p.renamed id r).fieldKey? i = (p.fieldNaming? i).bind fun f =>
      (p.nameAfter id r.new f.owner).map fun owner => Key.field owner f.name := by
  rw [field_key_eq, field_naming?_renamed]
  simp only [class_name?_renamed p id r live]

theorem method_key?_renamed (live : p.className? id = some r.old) (i : MethodId) :
    (p.renamed id r).methodKey? i = (p.methodNaming? i).bind fun m =>
      (p.nameAfter id r.new m.owner).map fun owner =>
        Key.method owner m.name (r.descriptor m.descriptor) := by
  rw [method_key_eq, method_naming?_renamed, Option.bind_map]
  simp only [class_name?_renamed p id r live]
  rfl

theorem lists_renamed {α : Type} (read : ClassNaming → List α)
    (kept : ∀ n : ClassNaming, read { n with name := r.new } = read n) (c : ClassId) :
    ((p.renamed id r).classNaming? c).map read = (p.classNaming? c).map read := by
  rw [class_naming?_renamed]
  split
  · rw [Option.map_map]
    exact congrArg (Option.map · _) (funext kept)
  · rfl

theorem field_keys_live (indexed : p.Indexed) (live : p.className? id = some r.old) (i : FieldId)
    (f : FieldNaming) (naming : p.fieldNaming? i = some f) :
    p.fieldKey? i = some (p.fieldKeyUnder id r.old i) ∧
      (p.renamed id r).fieldKey? i = some (p.fieldKeyUnder id r.new i) := by
  obtain ⟨field, found, rfl⟩ := Option.map_eq_some_iff.mp naming
  obtain ⟨owner, ownerLive, held⟩ := indexed.field_key i field found
  obtain ⟨renamed, after⟩ := name_after_live p id r.new field.owner (by rw [ownerLive]; rfl)
  have before := name_after_self p id r.old live field.owner
  constructor
  · rw [held, field_key_under_eq p id r.old i field.naming owner naming (before.trans ownerLive)]
    rfl
  · rw [field_key?_renamed p id r live, naming, field_key_under_eq p id r.new i field.naming renamed naming after]
    exact congrArg (Option.map _) after

theorem method_keys_live (indexed : p.Indexed) (live : p.className? id = some r.old) (i : MethodId)
    (m : MethodNaming) (naming : p.methodNaming? i = some m) :
    p.methodKey? i = some (p.methodKeyUnder id r.old (fun d => d) i) ∧
      (p.renamed id r).methodKey? i = some (p.methodKeyUnder id r.new r.descriptor i) := by
  obtain ⟨method, found, rfl⟩ := Option.map_eq_some_iff.mp naming
  obtain ⟨owner, ownerLive, held⟩ := indexed.method_key i method found
  obtain ⟨renamed, after⟩ := name_after_live p id r.new method.owner (by rw [ownerLive]; rfl)
  have before := name_after_self p id r.old live method.owner
  constructor
  · rw [held, method_key_under_eq p id r.old _ i method.naming owner naming (before.trans ownerLive)]
    rfl
  · rw [method_key?_renamed p id r live, naming,
      method_key_under_eq p id r.new r.descriptor i method.naming renamed naming after]
    exact congrArg (Option.map _) after

theorem field_key_under_injective (indexed : p.Indexed) (free : p.findClass? r.new = none)
    (plain : Undotted r.new) (v w : FieldId) (vLive : (p.fieldNaming? v).isSome)
    (wLive : (p.fieldNaming? w).isSome)
    (same : p.fieldKeyUnder id r.new v = p.fieldKeyUnder id r.new w) : v = w := by
  obtain ⟨f, naming⟩ := Option.isSome_iff_exists.mp vLive
  obtain ⟨g, naming'⟩ := Option.isSome_iff_exists.mp wLive
  obtain ⟨field, found, rfl⟩ := Option.map_eq_some_iff.mp naming
  obtain ⟨field', found', rfl⟩ := Option.map_eq_some_iff.mp naming'
  obtain ⟨owner, ownerLive, held⟩ := indexed.field_key v field found
  obtain ⟨owner', ownerLive', held'⟩ := indexed.field_key w field' found'
  obtain ⟨after, named⟩ := name_after_live p id r.new field.owner (by rw [ownerLive]; rfl)
  obtain ⟨after', named'⟩ := name_after_live p id r.new field'.owner (by rw [ownerLive']; rfl)
  rw [field_key_under_eq p id r.new v field.naming after naming named,
    field_key_under_eq p id r.new w field'.naming after' naming' named'] at same
  have parts := Key.field_injective _ _ _ _ (plain_name_after p id indexed r.new plain _ _ named)
    (plain_name_after p id indexed r.new plain _ _ named') same
  have owners : field.owner = field'.owner :=
    name_after_injective p id indexed r.new free _ _ after named (parts.1 ▸ named')
  have names : field.name = field'.name := parts.2
  rw [owners, ownerLive'] at ownerLive
  cases ownerLive
  rw [names] at held
  exact Table.inverse_unique _ _ indexed.fields.inverse _ v w held held'

theorem method_keys_after_eq (ordered : p.methods.Ordered) :
    p.methodKeysAfter r id = p.methodIds.map (p.methodKeyUnder id r.new r.descriptor) := by
  simp only [methodKeysAfter, Table.values, methodIds, Table.keys, List.map_map]
  apply List.map_congr_left
  rintro ⟨i, m⟩ row
  have found : p.method? i = some m := (Table.mem_to_list_iff _ ordered i m).mp row
  have naming : p.methodNaming? i = some m.naming := congrArg (Option.map Method.naming) found
  simp only [Function.comp, methodKeyUnder, naming]
  rfl

theorem method_key_under_injective (indexed : p.Indexed)
    (distinct : firstRepeated? (p.methodKeysAfter r id) [] = none) (v w : MethodId)
    (vLive : v ∈ p.methodIds) (wLive : w ∈ p.methodIds)
    (same : p.methodKeyUnder id r.new r.descriptor v = p.methodKeyUnder id r.new r.descriptor w) :
    v = w := by
  have unique := (first_repeated?_none _ _ distinct).1
  rw [method_keys_after_eq p id r indexed.methodOrder] at unique
  exact List.inj_on_of_nodup_map unique vLive wLive same

theorem field_members_renamed (indexed : p.Indexed) (live : p.className? id = some r.old)
    (free : p.findClass? r.new = none) (plain : Undotted r.new) :
    (p.renamed id r).fieldMembers.Agree := by
  have loaded : ∀ i, i ∈ p.fieldIds ↔ (p.fieldNaming? i).isSome := by
    intro i
    rw [fieldIds, Table.mem_keys_iff, ← Option.isSome_iff_exists, fieldNaming?, Option.isSome_map]
    rfl
  have keys : ∀ i ∈ p.fieldIds, p.fieldKey? i = some (p.fieldKeyUnder id r.old i) ∧
      (p.renamed id r).fieldKey? i = some (p.fieldKeyUnder id r.new i) := by
    intro i member
    obtain ⟨f, naming⟩ := Option.isSome_iff_exists.mp ((loaded i).mp member)
    exact field_keys_live p id r indexed live i f naming
  apply Members.agree_rekeyed p.fieldMembers _ p.fieldIds (p.fieldKeyUnder id r.old)
    (p.fieldKeyUnder id r.new) indexed.fields (Table.keys_nodup _ indexed.fieldOrder)
  · exact fun i => (loaded i).trans (by simp [fieldMembers])
  · exact fun i member => (keys i member).1
  · exact fun i member => (keys i member).2
  · intro i absent
    have dead : p.fieldNaming? i = none := by simpa [loaded] using absent
    exact (field_key?_renamed p id r live i).trans (by rw [dead]; rfl)
  · exact fun v member w member' => field_key_under_injective p id r indexed free plain v w
      ((loaded v).mp member) ((loaded w).mp member')
  · rfl
  · exact fun i => congrArg (Option.map FieldNaming.owner) (field_naming?_renamed p id r i)
  · exact lists_renamed p id r ClassNaming.fields fun _ => rfl

theorem method_members_renamed (indexed : p.Indexed) (live : p.className? id = some r.old)
    (distinct : firstRepeated? (p.methodKeysAfter r id) [] = none) :
    (p.renamed id r).methodMembers.Agree := by
  have loaded : ∀ i, i ∈ p.methodIds ↔ (p.methodNaming? i).isSome := by
    intro i
    rw [methodIds, Table.mem_keys_iff, ← Option.isSome_iff_exists, methodNaming?, Option.isSome_map]
    rfl
  have keys : ∀ i ∈ p.methodIds, p.methodKey? i = some (p.methodKeyUnder id r.old (fun d => d) i) ∧
      (p.renamed id r).methodKey? i = some (p.methodKeyUnder id r.new r.descriptor i) := by
    intro i member
    obtain ⟨m, naming⟩ := Option.isSome_iff_exists.mp ((loaded i).mp member)
    exact method_keys_live p id r indexed live i m naming
  apply Members.agree_rekeyed p.methodMembers _ p.methodIds (p.methodKeyUnder id r.old fun d => d)
    (p.methodKeyUnder id r.new r.descriptor) indexed.methods (Table.keys_nodup _ indexed.methodOrder)
  · exact fun i => (loaded i).trans (by simp [methodMembers])
  · exact fun i member => (keys i member).1
  · exact fun i member => (keys i member).2
  · intro i absent
    have dead : p.methodNaming? i = none := by simpa [loaded] using absent
    exact (method_key?_renamed p id r live i).trans (by rw [dead]; rfl)
  · exact fun v member w member' => method_key_under_injective p id r indexed distinct v w member member'
  · rfl
  · intro i
    change ((p.renamed id r).methodNaming? i).map (·.owner) = (p.methodNaming? i).map (·.owner)
    rw [method_naming?_renamed, Option.map_map]
    rfl
  · exact lists_renamed p id r ClassNaming.methods fun _ => rfl

theorem class_names_renamed (names : p.index.classes.InverseOf p.className?)
    (live : p.className? id = some r.old) (free : p.findClass? r.new = none) :
    (p.renamed id r).index.classes.InverseOf (p.renamed id r).className? := by
  have erased := Table.inverse_erase_if p.index.classes p.className? r.old id names live
  have freeStill : (p.index.classes.eraseIf r.old id).1.get? r.new = none := by
    rw [Table.get?_erase_if, show p.index.classes.get? r.new = none from free, ite_self]
  have inserted := Table.inverse_insert _ _ r.new id erased freeStill (if_pos rfl)
  intro name c
  refine (inserted name c).trans ?_
  rw [class_name?_renamed p id r live, nameAfter]
  by_cases same : c = id <;> simp [same]

theorem indexed_renamed (indexed : p.Indexed) (live : p.className? id = some r.old)
    (free : p.findClass? r.new = none)
    (distinct : firstRepeated? (p.methodKeysAfter r id) [] = none) (plain : Undotted r.new) :
    (p.renamed id r).Indexed := by
  have unlinked := same_names_unlink_class p id
  have nextId : (p.renamed id r).nextId = p.nextId := unlinked.nextId
  refine {
    classIndex := Table.ordered_insert _ _ _ (Table.ordered_erase_if _ _ _ indexed.classIndex)
    classNames := class_names_renamed p id r indexed.classNames live free
    fields := field_members_renamed p id r indexed live free plain
    methods := method_members_renamed p id r indexed live distinct
    classOrder := ?_, fieldOrder := ?_, methodOrder := ?_, plainClass := ?_, plainField := ?_
    plainMethod := ?_, freshClass := ?_, freshField := ?_, freshMethod := ?_ }
  · have keys : (p.renamed id r).classIds = p.classIds :=
      (Table.keys_map_values _ _).trans ((Table.keys_modify _ _ _).trans unlinked.classIds)
    exact (congrArg (List.Pairwise (· < ·)) keys).mpr indexed.classOrder
  · exact (congrArg (List.Pairwise (· < ·)) (Table.keys_map_values _ _)).mpr indexed.fieldOrder
  · exact (congrArg (List.Pairwise (· < ·)) (Table.keys_map_values _ _)).mpr indexed.methodOrder
  · intro c n found
    rw [class_naming?_renamed] at found
    split at found
    · obtain ⟨_, _, rfl⟩ := Option.map_eq_some_iff.mp found
      exact plain
    · exact indexed.plainClass c n found
  · intro i f found
    rw [field_naming?_renamed] at found
    exact indexed.plainField i f found
  · intro i m found
    rw [method_naming?_renamed] at found
    obtain ⟨before, foundBefore, rfl⟩ := Option.map_eq_some_iff.mp found
    exact indexed.plainMethod i before foundBefore
  · intro c present
    rw [class_naming?_renamed] at present
    rw [nextId]
    apply indexed.freshClass c
    split at present
    · rwa [Option.isSome_map] at present
    · exact present
  · intro i present
    rw [field_naming?_renamed] at present
    rw [nextId]
    exact indexed.freshField i present
  · intro i present
    rw [method_naming?_renamed, Option.isSome_map] at present
    rw [nextId]
    exact indexed.freshMethod i present

end Renamed

theorem indexed_rename_class (p q : Program) (id : ClassId) (new : String) (indexed : p.Indexed)
    (plain : Undotted new) (done : p.renameClass id new = .ok q) : q.Indexed := by
  obtain ⟨old, live, outcome⟩ := rename_class_ok p q id new indexed.is_owned
    (Table.keys_nodup _ indexed.classOrder) (Table.keys_nodup _ indexed.fieldOrder)
    (Table.keys_nodup _ indexed.methodOrder) done
  rcases outcome with ⟨_, rfl⟩ | ⟨_, free, distinct, rfl⟩
  · exact indexed
  · have renamed := indexed_renamed p id ⟨old, new⟩ indexed live free distinct plain
    exact indexed_same_names _ _ (same_names_relink_class _ id) renamed

end Program

end JvmEdit
