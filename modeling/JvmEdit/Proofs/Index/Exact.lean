import JvmEdit.Ident
import JvmEdit.Proofs.Data.Table
import JvmEdit.Proofs.Program.Edits
import JvmEdit.Proofs.Program.Key
import Mathlib.Data.String.Basic
set_option autoImplicit false

namespace JvmEdit

structure Members (μ : Type) where
  index : Table String μ
  key? : μ → Option String
  owner? : μ → Option ClassId
  list? : ClassId → Option (List μ)

namespace Members

variable {μ : Type} [DecidableEq μ]

omit [DecidableEq μ] in
@[ext] theorem ext (m n : Members μ) (index : m.index = n.index) (keys : ∀ i, m.key? i = n.key? i)
    (owners : ∀ i, m.owner? i = n.owner? i) (lists : ∀ c, m.list? c = n.list? c) : m = n := by
  obtain ⟨a, b, c, d⟩ := m
  obtain ⟨a', b', c', d'⟩ := n
  have keysEq : b = b' := funext keys
  have ownersEq : c = c' := funext owners
  have listsEq : d = d' := funext lists
  have indexEq : a = a' := index
  rw [keysEq, ownersEq, listsEq, indexEq]

structure Agree (m : Members μ) : Prop where
  ordered : m.index.Ordered
  inverse : m.index.InverseOf m.key?
  owned : ∀ i, (m.owner? i).isSome ↔ (m.key? i).isSome
  listed : ∀ c ids, m.list? c = some ids → ids.Nodup ∧ ∀ i, i ∈ ids ↔ m.owner? i = some c

omit [DecidableEq μ] in
theorem find?_listed (m : Members μ) (agree : m.Agree) (c : ClassId) (ids : List μ)
    (list : m.list? c = some ids) (called : μ → Bool)
    (once : ∀ i j, m.owner? i = some c → called i → m.owner? j = some c → called j → i = j) (id : μ) :
    ids.find? called = some id ↔ m.owner? id = some c ∧ called id := by
  have listed := (agree.listed c ids list).2
  constructor
  · intro found
    exact ⟨(listed id).mp (List.mem_of_find?_eq_some found), List.find?_some found⟩
  · intro ⟨owned, isCalled⟩
    cases first : ids.find? called with
    | none => exact absurd isCalled (List.find?_eq_none.mp first id ((listed id).mpr owned))
    | some other =>
        have ownedToo := (listed other).mp (List.mem_of_find?_eq_some first)
        exact congrArg some (once other id ownedToo (List.find?_some first) owned isCalled)

-- A member that stays with its owner goes by another key.
def rename (m : Members μ) (id : μ) (old new : String) : Members μ :=
  { m with
    index := (m.index.eraseIf old id).1.insert new id
    key? := fun i => if i = id then some new else m.key? i }

def detach (m : Members μ) (id : μ) (owner : ClassId) (key : String) : Members μ where
  index := (m.index.eraseIf key id).1
  key? := fun i => if i = id then none else m.key? i
  owner? := fun i => if i = id then none else m.owner? i
  list? := fun c => if owner = c then (m.list? c).map (·.filter (· ≠ id)) else m.list? c

def attach (m : Members μ) (id : μ) (owner : ClassId) (key : String) : Members μ where
  index := m.index.insert key id
  key? := fun i => if i = id then some key else m.key? i
  owner? := fun i => if i = id then some owner else m.owner? i
  list? := fun c => if owner = c then (m.list? c).map (· ++ [id]) else m.list? c

theorem detach_list (m : Members μ) (id : μ) (owner : ClassId) (key : String) :
    (m.detach id owner key).list? owner = (m.list? owner).map (·.filter (· ≠ id)) := if_pos rfl

theorem attach_list (m : Members μ) (id : μ) (owner : ClassId) (key : String) :
    (m.attach id owner key).list? owner = (m.list? owner).map (· ++ [id]) := if_pos rfl

omit [DecidableEq μ] in
theorem owner_none (m : Members μ) (agree : m.Agree) (id : μ) (absent : m.key? id = none) :
    m.owner? id = none := by
  have owned := agree.owned id
  cases found : m.owner? id with
  | none => rfl
  | some owner => simp [found, absent] at owned

theorem agree_rename (m : Members μ) (id : μ) (old new : String) (agree : m.Agree)
    (held : m.key? id = some old) (free : m.index.get? new = none) : (m.rename id old new).Agree := by
  have detached := Table.inverse_erase_if m.index m.key? old id agree.inverse held
  have freeStill : (m.index.eraseIf old id).1.get? new = none := by
    rw [Table.get?_erase_if, free, ite_self]
  have renamed := Table.inverse_insert _ _ new id detached freeStill (if_pos rfl)
  refine ⟨?_, ?_, ?_, agree.listed⟩
  · exact Table.ordered_insert _ _ _ (Table.ordered_erase_if _ _ _ agree.ordered)
  · intro key i
    refine (renamed key i).trans ?_
    by_cases same : i = id <;> simp [rename, same]
  · intro i
    change (m.owner? i).isSome ↔ (if i = id then some new else m.key? i).isSome
    rw [agree.owned i]
    by_cases same : i = id
    · simp [same, held]
    · simp [same]

theorem agree_detach (m : Members μ) (id : μ) (owner : ClassId) (key : String) (agree : m.Agree)
    (held : m.key? id = some key) (owned : m.owner? id = some owner) :
    (m.detach id owner key).Agree := by
  refine ⟨Table.ordered_erase_if _ _ _ agree.ordered,
    Table.inverse_erase_if m.index m.key? key id agree.inverse held, ?_, ?_⟩
  · intro i
    by_cases same : i = id
    · simp [detach, same]
    · simpa [detach, same] using agree.owned i
  · intro c ids found
    by_cases isOwner : owner = c
    · subst isOwner
      rw [detach_list, Option.map_eq_some_iff] at found
      obtain ⟨before, foundBefore, rfl⟩ := found
      have listed := agree.listed owner before foundBefore
      refine ⟨listed.1.filter _, ?_⟩
      intro i
      by_cases same : i = id <;> simp [detach, same, listed.2 i]
    · simp only [detach, if_neg isOwner] at found
      have listed := agree.listed c ids found
      refine ⟨listed.1, ?_⟩
      intro i
      by_cases same : i = id
      · subst same
        simp [detach, listed.2 i, owned, isOwner]
      · simp [detach, same, listed.2 i]

theorem agree_attach (m : Members μ) (id : μ) (owner : ClassId) (key : String) (agree : m.Agree)
    (absent : m.key? id = none) (free : m.index.get? key = none) : (m.attach id owner key).Agree := by
  have unowned := owner_none m agree id absent
  refine ⟨Table.ordered_insert _ _ _ agree.ordered,
    Table.inverse_insert m.index m.key? key id agree.inverse free absent, ?_, ?_⟩
  · intro i
    by_cases same : i = id
    · simp [attach, same]
    · simpa [attach, same] using agree.owned i
  · intro c ids found
    by_cases isOwner : owner = c
    · subst isOwner
      rw [attach_list, Option.map_eq_some_iff] at found
      obtain ⟨before, foundBefore, rfl⟩ := found
      have listed := agree.listed owner before foundBefore
      have unlisted : id ∉ before := fun member => by
        have named := (listed.2 id).mp member
        rw [unowned] at named
        cases named
      refine ⟨?_, ?_⟩
      · rw [List.nodup_append]
        exact ⟨listed.1, by simp, by grind⟩
      · intro i
        by_cases same : i = id
        · simp [attach, same]
        · simp [attach, same, listed.2 i]
    · simp only [attach, if_neg isOwner] at found
      have listed := agree.listed c ids found
      refine ⟨listed.1, ?_⟩
      intro i
      by_cases same : i = id
      · subst same
        simp [attach, listed.2 i, unowned, isOwner]
      · simp [attach, same, listed.2 i]

end Members

instance : IsStrictTotalOrder ClassId (· < ·) where
  irrefl a := Nat.lt_irrefl a.val
  trans _ _ _ less less' := Nat.lt_trans less less'
  trichotomous a b unordered unordered' := by
    cases a
    cases b
    exact congrArg ClassId.mk (Nat.le_antisymm (Nat.le_of_not_lt unordered') (Nat.le_of_not_lt unordered))

instance : IsStrictTotalOrder FieldId (· < ·) where
  irrefl a := Nat.lt_irrefl a.val
  trans _ _ _ less less' := Nat.lt_trans less less'
  trichotomous a b unordered unordered' := by
    cases a
    cases b
    exact congrArg FieldId.mk (Nat.le_antisymm (Nat.le_of_not_lt unordered') (Nat.le_of_not_lt unordered))

instance : IsStrictTotalOrder MethodId (· < ·) where
  irrefl a := Nat.lt_irrefl a.val
  trans _ _ _ less less' := Nat.lt_trans less less'
  trichotomous a b unordered unordered' := by
    cases a
    cases b
    exact congrArg MethodId.mk (Nat.le_antisymm (Nat.le_of_not_lt unordered') (Nat.le_of_not_lt unordered))

namespace Program

def fieldMembers (p : Program) : Members FieldId where
  index := p.index.fields
  key? := p.fieldKey?
  owner? := fun id => (p.fieldNaming? id).map (·.owner)
  list? := fun c => (p.classNaming? c).map (·.fields)

def methodMembers (p : Program) : Members MethodId where
  index := p.index.methods
  key? := p.methodKey?
  owner? := fun id => (p.methodNaming? id).map (·.owner)
  list? := fun c => (p.classNaming? c).map (·.methods)

structure Indexed (p : Program) : Prop where
  classIndex : p.index.classes.Ordered
  classNames : p.index.classes.InverseOf p.className?
  fields : p.fieldMembers.Agree
  methods : p.methodMembers.Agree
  classOrder : p.classes.Ordered
  fieldOrder : p.fields.Ordered
  methodOrder : p.methods.Ordered
  plainClass : ∀ id c, p.classNaming? id = some c → Undotted c.name
  plainField : ∀ id f, p.fieldNaming? id = some f → Undotted f.name
  plainMethod : ∀ id m, p.methodNaming? id = some m → Undotted m.name
  freshClass : ∀ id, (p.classNaming? id).isSome → id.val < p.nextId
  freshField : ∀ id, (p.fieldNaming? id).isSome → id.val < p.nextId
  freshMethod : ∀ id, (p.methodNaming? id).isSome → id.val < p.nextId

-- What the index promises to its readers.
structure IndexExact (p : Program) : Prop where
  classKeys : ∀ id c, p.class? id = some c → p.index.classes.keysOf id = [c.name]
  fieldKeys : ∀ id f, p.field? id = some f → ∃ owner, p.class? f.owner = some owner ∧
    p.index.fields.keysOf id = [Key.field owner.name f.name]
  methodKeys : ∀ id m, p.method? id = some m → ∃ owner, p.class? m.owner = some owner ∧
    p.index.methods.keysOf id = [Key.method owner.name m.name m.descriptor]
  classRows : ∀ name id, (name, id) ∈ p.index.classes.toList →
    ∃ c, p.class? id = some c ∧ name = c.name
  fieldRows : ∀ key id, (key, id) ∈ p.index.fields.toList → ∃ f owner, p.field? id = some f ∧
    p.class? f.owner = some owner ∧ key = Key.field owner.name f.name
  methodRows : ∀ key id, (key, id) ∈ p.index.methods.toList → ∃ m owner, p.method? id = some m ∧
    p.class? m.owner = some owner ∧ key = Key.method owner.name m.name m.descriptor
  fieldLists : ∀ id c, p.class? id = some c → c.fields.Nodup ∧
    ∀ member, member ∈ c.fields ↔ ∃ f, p.field? member = some f ∧ f.owner = id
  methodLists : ∀ id c, p.class? id = some c → c.methods.Nodup ∧
    ∀ member, member ∈ c.methods ↔ ∃ m, p.method? member = some m ∧ m.owner = id

theorem field_members_same_names (p q : Program) (same : SameNames p q) :
    q.fieldMembers = p.fieldMembers := by
  apply Members.ext
  · exact congrArg NameIndex.fields same.index
  · exact same.field_key
  · intro id
    exact congrArg (Option.map FieldNaming.owner) (same.fields id)
  · intro c
    exact congrArg (Option.map ClassNaming.fields) (same.classes c)

theorem method_members_same_names (p q : Program) (same : SameNames p q) :
    q.methodMembers = p.methodMembers := by
  apply Members.ext
  · exact congrArg NameIndex.methods same.index
  · exact same.method_key
  · intro id
    exact congrArg (Option.map MethodNaming.owner) (same.methods id)
  · intro c
    exact congrArg (Option.map ClassNaming.methods) (same.classes c)

theorem indexed_same_names (p q : Program) (same : SameNames p q) (indexed : p.Indexed) :
    q.Indexed where
  classIndex := by
    rw [same.index]
    exact indexed.classIndex
  classNames := by
    rw [same.index, show q.className? = p.className? from funext same.class_name]
    exact indexed.classNames
  fields := field_members_same_names p q same ▸ indexed.fields
  methods := method_members_same_names p q same ▸ indexed.methods
  classOrder := (congrArg (List.Pairwise (· < ·)) same.classIds).mpr indexed.classOrder
  fieldOrder := (congrArg (List.Pairwise (· < ·)) same.fieldIds).mpr indexed.fieldOrder
  methodOrder := (congrArg (List.Pairwise (· < ·)) same.methodIds).mpr indexed.methodOrder
  plainClass := fun id c found => indexed.plainClass id c ((same.classes id).symm.trans found)
  plainField := fun id f found => indexed.plainField id f ((same.fields id).symm.trans found)
  plainMethod := fun id m found => indexed.plainMethod id m ((same.methods id).symm.trans found)
  freshClass := fun id live => by
    rw [same.nextId]
    exact indexed.freshClass id (same.classes id ▸ live)
  freshField := fun id live => by
    rw [same.nextId]
    exact indexed.freshField id (same.fields id ▸ live)
  freshMethod := fun id live => by
    rw [same.nextId]
    exact indexed.freshMethod id (same.methods id ▸ live)

theorem indexed_advance (p : Program) (count : Nat) (indexed : p.Indexed) :
    (p.advance count).Indexed :=
  { indexed with
    freshClass := fun id live => Nat.lt_add_right count (indexed.freshClass id live)
    freshField := fun id live => Nat.lt_add_right count (indexed.freshField id live)
    freshMethod := fun id live => Nat.lt_add_right count (indexed.freshMethod id live) }

theorem members_empty {μ : Type} [DecidableEq μ] :
    (⟨.empty, fun _ => none, fun _ => none, fun _ => none⟩ : Members μ).Agree where
  ordered := Table.ordered_empty
  inverse := by
    intro key value
    constructor <;> intro found <;> cases found
  owned := fun _ => Iff.rfl
  listed := fun _ _ found => by cases found

theorem indexed_empty (p : Program) (index : p.index = .empty) (classes : p.classes = .empty)
    (fields : p.fields = .empty) (methods : p.methods = .empty) : p.Indexed := by
  obtain ⟨settings, nextId, _, _, _, _⟩ := p
  subst index classes fields methods
  refine ⟨Table.ordered_empty, ?_, members_empty, members_empty, Table.ordered_empty,
    Table.ordered_empty, Table.ordered_empty, ?_, ?_, ?_, ?_, ?_, ?_⟩
  · intro name id
    constructor <;> intro found <;> cases found
  all_goals
    intros
    rename_i found
    cases found

theorem class_name_live (p : Program) (id : ClassId) (name : String)
    (live : p.className? id = some name) : ∃ c, p.class? id = some c ∧ c.name = name :=
  Option.map_eq_some_iff.mp live

theorem field_key_live (p : Program) (id : FieldId) (key : String) (live : p.fieldKey? id = some key) :
    ∃ f owner, p.field? id = some f ∧ p.class? f.owner = some owner ∧
      key = Key.field owner.name f.name := by
  obtain ⟨f, found, rest⟩ := Option.bind_eq_some_iff.mp live
  obtain ⟨name, named, isKey⟩ := Option.map_eq_some_iff.mp rest
  obtain ⟨owner, ownerFound, rfl⟩ := class_name_live p f.owner name named
  exact ⟨f, owner, found, ownerFound, isKey.symm⟩

theorem method_key_live (p : Program) (id : MethodId) (key : String)
    (live : p.methodKey? id = some key) :
    ∃ m owner, p.method? id = some m ∧ p.class? m.owner = some owner ∧
      key = Key.method owner.name m.name m.descriptor := by
  obtain ⟨m, found, rest⟩ := Option.bind_eq_some_iff.mp live
  obtain ⟨name, named, isKey⟩ := Option.map_eq_some_iff.mp rest
  obtain ⟨owner, ownerFound, rfl⟩ := class_name_live p m.owner name named
  exact ⟨m, owner, found, ownerFound, isKey.symm⟩

theorem Indexed.field_key {p : Program} (indexed : p.Indexed) (id : FieldId) (f : Field)
    (found : p.field? id = some f) :
    ∃ owner, p.className? f.owner = some owner ∧ p.fieldKey? id = some (Key.field owner f.name) := by
  have naming : p.fieldNaming? id = some f.naming := by rw [fieldNaming?, found]; rfl
  have owned := (indexed.fields.owned id).mp (by simp [fieldMembers, naming])
  obtain ⟨key, live⟩ := Option.isSome_iff_exists.mp owned
  obtain ⟨f', owner, found', ownerFound, rfl⟩ := field_key_live p id key live
  rw [found] at found'
  cases found'
  exact ⟨owner.name, by rw [className?, ownerFound]; rfl, live⟩

theorem Indexed.method_key {p : Program} (indexed : p.Indexed) (id : MethodId) (m : Method)
    (found : p.method? id = some m) : ∃ owner, p.className? m.owner = some owner ∧
      p.methodKey? id = some (Key.method owner m.name m.descriptor) := by
  have naming : p.methodNaming? id = some m.naming := by rw [methodNaming?, found]; rfl
  have owned := (indexed.methods.owned id).mp (by simp [methodMembers, naming])
  obtain ⟨key, live⟩ := Option.isSome_iff_exists.mp owned
  obtain ⟨m', owner, found', ownerFound, rfl⟩ := method_key_live p id key live
  rw [found] at found'
  cases found'
  exact ⟨owner.name, by rw [className?, ownerFound]; rfl, live⟩

theorem Indexed.is_owned {p : Program} (indexed : p.Indexed) : p.Owned where
  fields := fun id f found =>
    have ⟨owner, live, _⟩ := indexed.field_key id f found
    ⟨owner, live⟩
  methods := fun id m found =>
    have ⟨owner, live, _⟩ := indexed.method_key id m found
    ⟨owner, live⟩

theorem keys_of_inverse {α : Type} [DecidableEq α] (t : Table String α) (key? : α → Option String)
    (ordered : t.Ordered) (inverse : t.InverseOf key?) (value : α) (key : String)
    (held : key? value = some key) : t.keysOf value = [key] := by
  refine Table.keys_of_eq_singleton t ordered key value fun other => ?_
  rw [inverse other value, held, Option.some_inj]
  exact eq_comm

theorem index_exact_of_indexed (p : Program) (indexed : p.Indexed) : p.IndexExact where
  classKeys := fun id c found =>
    keys_of_inverse _ p.className? indexed.classIndex indexed.classNames id c.name
      (by rw [className?, found]; rfl)
  fieldKeys := fun id f found => by
    obtain ⟨owner, live, held⟩ := indexed.field_key id f found
    obtain ⟨c, ownerFound, rfl⟩ := class_name_live p f.owner owner live
    exact ⟨c, ownerFound, keys_of_inverse _ p.fieldKey? indexed.fields.ordered
      indexed.fields.inverse id _ held⟩
  methodKeys := fun id m found => by
    obtain ⟨owner, live, held⟩ := indexed.method_key id m found
    obtain ⟨c, ownerFound, rfl⟩ := class_name_live p m.owner owner live
    exact ⟨c, ownerFound, keys_of_inverse _ p.methodKey? indexed.methods.ordered
      indexed.methods.inverse id _ held⟩
  classRows := fun name id row => by
    have found := (Table.mem_to_list_iff _ indexed.classIndex name id).mp row
    obtain ⟨c, live, same⟩ := class_name_live p id name ((indexed.classNames name id).mp found)
    exact ⟨c, live, same.symm⟩
  fieldRows := fun key id row => by
    have found := (Table.mem_to_list_iff _ indexed.fields.ordered key id).mp row
    exact field_key_live p id key ((indexed.fields.inverse key id).mp found)
  methodRows := fun key id row => by
    have found := (Table.mem_to_list_iff _ indexed.methods.ordered key id).mp row
    exact method_key_live p id key ((indexed.methods.inverse key id).mp found)
  fieldLists := fun id c found => by
    have listed := indexed.fields.listed id c.fields
      (by simp [fieldMembers, classNaming?, found, Class.naming])
    refine ⟨listed.1, fun member => ?_⟩
    rw [listed.2 member]
    simp [fieldMembers, fieldNaming?, Field.naming]
  methodLists := fun id c found => by
    have listed := indexed.methods.listed id c.methods
      (by simp [methodMembers, classNaming?, found, Class.naming])
    refine ⟨listed.1, fun member => ?_⟩
    rw [listed.2 member]
    simp [methodMembers, methodNaming?, Method.naming]

end Program

end JvmEdit
