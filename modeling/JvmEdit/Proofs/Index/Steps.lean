import JvmEdit.Proofs.Index.Exact
set_option autoImplicit false

namespace JvmEdit

namespace Program

-- The programs differ in the members that one class lists, and in nothing else about their classes.
structure Relists (p q : Program) (owner : ClassId) (f : ClassNaming → ClassNaming) : Prop where
  keepsName : ∀ n, (f n).name = n.name
  index : q.index.classes = p.index.classes
  counter : q.nextId = p.nextId
  classIds : q.classIds = p.classIds
  naming : ∀ c, q.classNaming? c =
    if owner = c then (p.classNaming? c).map f else p.classNaming? c

namespace Relists

variable {p q : Program} {owner : ClassId} {f : ClassNaming → ClassNaming}
variable (relists : Relists p q owner f)

include relists

theorem lists {α : Type} (get : ClassNaming → α) (change : α → α)
    (follows : ∀ n, get (f n) = change (get n)) (c : ClassId) : (q.classNaming? c).map get =
      if owner = c then ((p.classNaming? c).map get).map change else (p.classNaming? c).map get := by
  have same : get ∘ f = change ∘ get := funext follows
  rw [relists.naming, apply_ite (Option.map get), Option.map_map, Option.map_map, same]

theorem keeps {α : Type} (get : ClassNaming → α) (same : ∀ n, get (f n) = get n) (c : ClassId) :
    (q.classNaming? c).map get = (p.classNaming? c).map get := by
  rw [relists.lists get id same, Option.map_id, id, ite_self]

theorem class_name (c : ClassId) : q.className? c = p.className? c := by
  rw [class_name_eq, class_name_eq]
  exact relists.keeps ClassNaming.name relists.keepsName c

theorem field_members (fields : q.index.fields = p.index.fields)
    (namings : ∀ i, q.fieldNaming? i = p.fieldNaming? i) (same : ∀ n, (f n).fields = n.fields) :
    q.fieldMembers = p.fieldMembers := by
  apply Members.ext
  · exact fields
  · intro i
    change q.fieldKey? i = p.fieldKey? i
    simp only [field_key_eq, namings, relists.class_name]
  · intro i
    exact congrArg (Option.map FieldNaming.owner) (namings i)
  · exact relists.keeps ClassNaming.fields same

theorem method_members (methods : q.index.methods = p.index.methods)
    (namings : ∀ i, q.methodNaming? i = p.methodNaming? i)
    (same : ∀ n, (f n).methods = n.methods) : q.methodMembers = p.methodMembers := by
  apply Members.ext
  · exact methods
  · intro i
    change q.methodKey? i = p.methodKey? i
    simp only [method_key_eq, namings, relists.class_name]
  · intro i
    exact congrArg (Option.map MethodNaming.owner) (namings i)
  · exact relists.keeps ClassNaming.methods same

theorem classes (indexed : p.Indexed) : q.index.classes.Ordered ∧
    q.index.classes.InverseOf q.className? ∧ q.classes.Ordered ∧
    (∀ c n, q.classNaming? c = some n → Undotted n.name) ∧
    ∀ c, (q.classNaming? c).isSome → c.val < q.nextId := by
  have names : q.className? = p.className? := funext relists.class_name
  refine ⟨?_, ?_, ?_, ?_, ?_⟩
  · rw [relists.index]
    exact indexed.classIndex
  · rw [relists.index, names]
    exact indexed.classNames
  · exact (congrArg (List.Pairwise (· < ·)) relists.classIds).mpr indexed.classOrder
  · intro c n present
    have named : (p.classNaming? c).map (·.name) = some n.name := by
      rw [← relists.keeps ClassNaming.name relists.keepsName, present]
      rfl
    obtain ⟨before, found, sameName⟩ := Option.map_eq_some_iff.mp named
    exact sameName ▸ indexed.plainClass c before found
  · intro c present
    rw [relists.counter]
    apply indexed.freshClass c
    rw [← Option.isSome_map (f := ClassNaming.name),
      ← relists.keeps ClassNaming.name relists.keepsName, Option.isSome_map]
    exact present

end Relists

theorem relists_update_class (p : Program) (owner : ClassId) (change : Class → Class)
    (f : ClassNaming → ClassNaming) (keepsName : ∀ n, (f n).name = n.name)
    (follows : ∀ c, (change c).naming = f c.naming) :
    p.Relists (p.updateClass owner change) owner f where
  keepsName := keepsName
  index := rfl
  counter := rfl
  classIds := Table.keys_modify _ _ _
  naming := by
    intro c
    have same : Class.naming ∘ change = f ∘ Class.naming := funext follows
    rw [classNaming?, class?_update_class, apply_ite (Option.map Class.naming), Option.map_map, same,
      classNaming?, Option.map_map]

section Fields

variable (p : Program) (id : FieldId)

theorem field_naming?_relabel_field (owner old new : String) (i : FieldId) :
    (p.relabelField id owner old new).fieldNaming? i =
      if id = i then (p.fieldNaming? i).map ({ · with name := new }) else p.fieldNaming? i := by
  rw [relabelField, fieldNaming?, field?_update_field, apply_ite (Option.map Field.naming),
    fieldNaming?, Option.map_map, Option.map_map]
  rfl

theorem field_members_relabel_field (f : Field) (owner new : String) (found : p.field? id = some f)
    (live : p.className? f.owner = some owner) :
    (p.relabelField id owner f.name new).fieldMembers =
      p.fieldMembers.rename id (Key.field owner f.name)
        (Key.field owner new) := by
  have naming : p.fieldNaming? id = some f.naming := by rw [fieldNaming?, found]; rfl
  apply Members.ext
  · rfl
  · intro i
    change (p.relabelField id owner f.name new).fieldKey? i =
      if i = id then some (Key.field owner new) else p.fieldKey? i
    rw [field_key_eq, field_naming?_relabel_field]
    by_cases same : i = id
    · subst same
      rw [if_pos rfl, if_pos rfl, naming]
      exact congrArg (Option.map _) live
    · rw [if_neg (Ne.symm same), if_neg same]
      exact (field_key_eq p i).symm
  · intro i
    change ((p.relabelField id owner f.name new).fieldNaming? i).map (·.owner) =
      (p.fieldNaming? i).map (·.owner)
    rw [field_naming?_relabel_field, apply_ite (Option.map _), Option.map_map]
    exact ite_self _
  · exact fun _ => rfl

theorem indexed_relabel_field (f : Field) (owner new : String) (indexed : p.Indexed)
    (found : p.field? id = some f) (live : p.className? f.owner = some owner)
    (free : p.findFieldKey? (Key.field owner new) = none) (plain : Undotted new) :
    (p.relabelField id owner f.name new).Indexed := by
  have held : p.fieldKey? id = some (Key.field owner f.name) := by
    obtain ⟨owner', live', held⟩ := indexed.field_key id f found
    cases live.symm.trans live'
    exact held
  refine { indexed with fields := ?_, fieldOrder := ?_, plainField := ?_, freshField := ?_ }
  · rw [field_members_relabel_field p id f owner new found live]
    exact Members.agree_rename p.fieldMembers id _ _ indexed.fields held free
  · exact Table.ordered_modify _ _ _ indexed.fieldOrder
  · intro i naming present
    rw [field_naming?_relabel_field] at present
    by_cases same : id = i
    · rw [if_pos same] at present
      obtain ⟨_, _, rfl⟩ := Option.map_eq_some_iff.mp present
      exact plain
    · rw [if_neg same] at present
      exact indexed.plainField i naming present
  · intro i present
    rw [field_naming?_relabel_field] at present
    apply indexed.freshField i
    by_cases same : id = i
    · rwa [if_pos same, Option.isSome_map] at present
    · rwa [if_neg same] at present

variable (owner : ClassId)

theorem relists_detach_field (key : String) : p.Relists (p.detachField id owner key) owner
    fun n => { n with fields := n.fields.filter (· ≠ id) } := by
  have unlisted := relists_update_class (p.updateIndex (·.eraseField key id)) owner
    (fun c => { c with fields := c.fields.filter (· ≠ id) })
    (fun n => { n with fields := n.fields.filter (· ≠ id) }) (fun _ => rfl) fun _ => rfl
  exact ⟨unlisted.keepsName, unlisted.index, unlisted.counter, unlisted.classIds, unlisted.naming⟩

theorem field_naming?_detach_field (key : String) (i : FieldId) :
    (p.detachField id owner key).fieldNaming? i = if id = i then none else p.fieldNaming? i := by
  have gone : (p.detachField id owner key).field? i = if id = i then none else p.field? i :=
    Table.get?_erase p.fields id i
  rw [fieldNaming?, gone, apply_ite (Option.map Field.naming)]
  rfl

theorem field_members_detach_field (key : String) :
    (p.detachField id owner key).fieldMembers = p.fieldMembers.detach id owner key := by
  have relists := relists_detach_field p id owner key
  apply Members.ext
  · rfl
  · intro i
    change (p.detachField id owner key).fieldKey? i = if i = id then none else p.fieldKey? i
    rw [field_key_eq, field_naming?_detach_field]
    by_cases same : i = id
    · rw [if_pos same.symm, if_pos same]
      rfl
    · rw [if_neg (Ne.symm same), if_neg same, field_key_eq]
      simp only [relists.class_name]
  · intro i
    change ((p.detachField id owner key).fieldNaming? i).map (·.owner) =
      if i = id then none else (p.fieldNaming? i).map (·.owner)
    rw [field_naming?_detach_field, apply_ite (Option.map _)]
    exact if_congr eq_comm rfl rfl
  · exact relists.lists ClassNaming.fields (List.filter (· ≠ id)) fun _ => rfl

theorem indexed_detach_field (f : Field) (name : String) (indexed : p.Indexed)
    (found : p.field? id = some f) (live : p.className? f.owner = some name) :
    (p.detachField id f.owner (Key.field name f.name)).Indexed := by
  have naming : p.fieldNaming? id = some f.naming := by rw [fieldNaming?, found]; rfl
  have held : p.fieldKey? id = some (Key.field name f.name) := by
    rw [field_key_eq, naming]
    exact congrArg (Option.map _) live
  have relists := relists_detach_field p id f.owner (Key.field name f.name)
  obtain ⟨classIndex, classNames, classOrder, plainClass, freshClass⟩ := relists.classes indexed
  have still : ∀ i n,
      (p.detachField id f.owner (Key.field name f.name)).fieldNaming? i = some n →
        p.fieldNaming? i = some n := by
    intro i n present
    rw [field_naming?_detach_field] at present
    exact (Option.ite_none_left_eq_some.mp present).2
  have detached := Members.agree_detach p.fieldMembers id f.owner _ indexed.fields held
    (congrArg (Option.map _) naming)
  rw [← field_members_detach_field] at detached
  have others := indexed.methods
  rw [← relists.method_members rfl (fun _ => rfl) fun _ => rfl] at others
  refine { indexed with
    classIndex, classNames, classOrder, plainClass, freshClass
    fields := detached, methods := others, fieldOrder := ?_, plainField := ?_, freshField := ?_ }
  · exact Table.ordered_erase _ _ indexed.fieldOrder
  · exact fun i n present => indexed.plainField i n (still i n present)
  · intro i present
    obtain ⟨n, found⟩ := Option.isSome_iff_exists.mp present
    exact indexed.freshField i (Option.isSome_of_eq_some (still i n found))

theorem relists_place_field (key : String) (field : Field) :
    p.Relists (p.placeField id owner key field) owner fun n =>
      { n with fields := n.fields ++ [id] } := by
  have listed := relists_update_class { p with
      fields := p.fields.insert id { field with owner }, index := p.index.insertField key id } owner
    (fun c => { c with fields := c.fields ++ [id] })
    (fun n => { n with fields := n.fields ++ [id] }) (fun _ => rfl) fun _ => rfl
  exact ⟨listed.keepsName, listed.index, listed.counter, listed.classIds, listed.naming⟩

theorem field_naming?_place_field (key : String) (field : Field) (i : FieldId) :
    (p.placeField id owner key field).fieldNaming? i =
      if id = i then some ⟨owner, field.name⟩ else p.fieldNaming? i := by
  have placed : (p.placeField id owner key field).field? i =
      if id = i then some { field with owner } else p.field? i := Table.get?_insert p.fields id i _
  rw [fieldNaming?, placed, apply_ite (Option.map Field.naming)]
  rfl

theorem field_members_place_field (name : String) (field : Field)
    (live : p.className? owner = some name) :
    (p.placeField id owner (Key.field name field.name) field).fieldMembers =
      p.fieldMembers.attach id owner (Key.field name field.name) := by
  have relists :=
    relists_place_field p id owner (Key.field name field.name) field
  apply Members.ext
  · rfl
  · intro i
    change
      (p.placeField id owner (Key.field name field.name) field).fieldKey? i =
      if i = id then some (Key.field name field.name) else p.fieldKey? i
    rw [field_key_eq, field_naming?_place_field]
    simp only [relists.class_name]
    by_cases same : i = id
    · rw [if_pos same.symm, if_pos same]
      exact congrArg (Option.map _) live
    · rw [if_neg (Ne.symm same), if_neg same]
      exact (field_key_eq p i).symm
  · intro i
    change
      ((p.placeField id owner (Key.field name field.name) field).fieldNaming? i).map
        (·.owner) = if i = id then some owner else (p.fieldNaming? i).map (·.owner)
    rw [field_naming?_place_field, apply_ite (Option.map _)]
    exact if_congr eq_comm rfl rfl
  · exact relists.lists ClassNaming.fields (· ++ [id]) fun _ => rfl

theorem indexed_place_field (name : String) (field : Field) (indexed : p.Indexed)
    (live : p.className? owner = some name) (absent : p.field? id = none)
    (free : p.findFieldKey? (Key.field name field.name) = none)
    (plain : Undotted field.name) (fresh : id.val < p.nextId) :
    (p.placeField id owner (Key.field name field.name) field).Indexed := by
  have keyless : p.fieldKey? id = none := by rw [fieldKey?, absent]; rfl
  have relists :=
    relists_place_field p id owner (Key.field name field.name) field
  obtain ⟨classIndex, classNames, classOrder, plainClass, freshClass⟩ := relists.classes indexed
  have placed := Members.agree_attach p.fieldMembers id owner _ indexed.fields keyless free
  rw [← field_members_place_field p id owner name field live] at placed
  have others := indexed.methods
  rw [← relists.method_members rfl (fun _ => rfl) fun _ => rfl] at others
  refine { indexed with
    classIndex, classNames, classOrder, plainClass, freshClass
    fields := placed, methods := others, fieldOrder := ?_, plainField := ?_, freshField := ?_ }
  · exact Table.ordered_insert _ _ _ indexed.fieldOrder
  · intro i n present
    rw [field_naming?_place_field] at present
    by_cases same : id = i
    · rw [if_pos same] at present
      cases present
      exact plain
    · rw [if_neg same] at present
      exact indexed.plainField i n present
  · intro i present
    rw [field_naming?_place_field] at present
    by_cases same : id = i
    · exact same ▸ fresh
    · rw [if_neg same] at present
      exact indexed.freshField i present

end Fields

section Methods

variable (p : Program) (id : MethodId)

theorem method_naming?_relabel_method (owner old new descriptor : String) (i : MethodId) :
    (p.relabelMethod id owner old new descriptor).methodNaming? i =
      if id = i then (p.methodNaming? i).map ({ · with name := new }) else p.methodNaming? i := by
  rw [relabelMethod, methodNaming?, method?_update_method, apply_ite (Option.map Method.naming),
    methodNaming?, Option.map_map, Option.map_map]
  rfl

theorem method_members_relabel_method (m : Method) (owner new : String) (found : p.method? id = some m)
    (live : p.className? m.owner = some owner) :
    (p.relabelMethod id owner m.name new m.descriptor).methodMembers =
      p.methodMembers.rename id (Key.method owner m.name m.descriptor)
        (Key.method owner new m.descriptor) := by
  have naming : p.methodNaming? id = some m.naming := by rw [methodNaming?, found]; rfl
  apply Members.ext
  · rfl
  · intro i
    change (p.relabelMethod id owner m.name new m.descriptor).methodKey? i =
      if i = id then some (Key.method owner new m.descriptor) else p.methodKey? i
    rw [method_key_eq, method_naming?_relabel_method]
    by_cases same : i = id
    · subst same
      rw [if_pos rfl, if_pos rfl, naming]
      exact congrArg (Option.map _) live
    · rw [if_neg (Ne.symm same), if_neg same]
      exact (method_key_eq p i).symm
  · intro i
    change ((p.relabelMethod id owner m.name new m.descriptor).methodNaming? i).map (·.owner) =
      (p.methodNaming? i).map (·.owner)
    rw [method_naming?_relabel_method, apply_ite (Option.map _), Option.map_map]
    exact ite_self _
  · exact fun _ => rfl

theorem indexed_relabel_method (m : Method) (owner new : String) (indexed : p.Indexed)
    (found : p.method? id = some m) (live : p.className? m.owner = some owner)
    (free : p.findMethodKey? (Key.method owner new m.descriptor) = none) (plain : Undotted new) :
    (p.relabelMethod id owner m.name new m.descriptor).Indexed := by
  have held : p.methodKey? id = some (Key.method owner m.name m.descriptor) := by
    obtain ⟨owner', live', held⟩ := indexed.method_key id m found
    cases live.symm.trans live'
    exact held
  refine { indexed with methods := ?_, methodOrder := ?_, plainMethod := ?_, freshMethod := ?_ }
  · rw [method_members_relabel_method p id m owner new found live]
    exact Members.agree_rename p.methodMembers id _ _ indexed.methods held free
  · exact Table.ordered_modify _ _ _ indexed.methodOrder
  · intro i naming present
    rw [method_naming?_relabel_method] at present
    by_cases same : id = i
    · rw [if_pos same] at present
      obtain ⟨_, _, rfl⟩ := Option.map_eq_some_iff.mp present
      exact plain
    · rw [if_neg same] at present
      exact indexed.plainMethod i naming present
  · intro i present
    rw [method_naming?_relabel_method] at present
    apply indexed.freshMethod i
    by_cases same : id = i
    · rwa [if_pos same, Option.isSome_map] at present
    · rwa [if_neg same] at present

variable (owner : ClassId)

theorem relists_detach_method (key : String) : p.Relists (p.detachMethod id owner key) owner
    fun n => { n with methods := n.methods.filter (· ≠ id) } := by
  have unlisted := relists_update_class (p.updateIndex (·.eraseMethod key id)) owner
    (fun c => { c with methods := c.methods.filter (· ≠ id) })
    (fun n => { n with methods := n.methods.filter (· ≠ id) }) (fun _ => rfl) fun _ => rfl
  exact ⟨unlisted.keepsName, unlisted.index, unlisted.counter, unlisted.classIds, unlisted.naming⟩

theorem method_naming?_detach_method (key : String) (i : MethodId) :
    (p.detachMethod id owner key).methodNaming? i = if id = i then none else p.methodNaming? i := by
  have gone : (p.detachMethod id owner key).method? i = if id = i then none else p.method? i :=
    Table.get?_erase p.methods id i
  rw [methodNaming?, gone, apply_ite (Option.map Method.naming)]
  rfl

theorem method_members_detach_method (key : String) :
    (p.detachMethod id owner key).methodMembers = p.methodMembers.detach id owner key := by
  have relists := relists_detach_method p id owner key
  apply Members.ext
  · rfl
  · intro i
    change (p.detachMethod id owner key).methodKey? i = if i = id then none else p.methodKey? i
    rw [method_key_eq, method_naming?_detach_method]
    by_cases same : i = id
    · rw [if_pos same.symm, if_pos same]
      rfl
    · rw [if_neg (Ne.symm same), if_neg same, method_key_eq]
      simp only [relists.class_name]
  · intro i
    change ((p.detachMethod id owner key).methodNaming? i).map (·.owner) =
      if i = id then none else (p.methodNaming? i).map (·.owner)
    rw [method_naming?_detach_method, apply_ite (Option.map _)]
    exact if_congr eq_comm rfl rfl
  · exact relists.lists ClassNaming.methods (List.filter (· ≠ id)) fun _ => rfl

theorem indexed_detach_method (m : Method) (name : String) (indexed : p.Indexed)
    (found : p.method? id = some m) (live : p.className? m.owner = some name) :
    (p.detachMethod id m.owner (Key.method name m.name m.descriptor)).Indexed := by
  have naming : p.methodNaming? id = some m.naming := by rw [methodNaming?, found]; rfl
  have held : p.methodKey? id = some (Key.method name m.name m.descriptor) := by
    rw [method_key_eq, naming]
    exact congrArg (Option.map _) live
  have relists := relists_detach_method p id m.owner (Key.method name m.name m.descriptor)
  obtain ⟨classIndex, classNames, classOrder, plainClass, freshClass⟩ := relists.classes indexed
  have still : ∀ i n,
      (p.detachMethod id m.owner (Key.method name m.name m.descriptor)).methodNaming? i = some n →
        p.methodNaming? i = some n := by
    intro i n present
    rw [method_naming?_detach_method] at present
    exact (Option.ite_none_left_eq_some.mp present).2
  have detached := Members.agree_detach p.methodMembers id m.owner _ indexed.methods held
    (congrArg (Option.map _) naming)
  rw [← method_members_detach_method] at detached
  have others := indexed.fields
  rw [← relists.field_members rfl (fun _ => rfl) fun _ => rfl] at others
  refine { indexed with
    classIndex, classNames, classOrder, plainClass, freshClass
    methods := detached, fields := others, methodOrder := ?_, plainMethod := ?_, freshMethod := ?_ }
  · exact Table.ordered_erase _ _ indexed.methodOrder
  · exact fun i n present => indexed.plainMethod i n (still i n present)
  · intro i present
    obtain ⟨n, found⟩ := Option.isSome_iff_exists.mp present
    exact indexed.freshMethod i (Option.isSome_of_eq_some (still i n found))

theorem relists_place_method (key : String) (method : Method) :
    p.Relists (p.placeMethod id owner key method) owner fun n =>
      { n with methods := n.methods ++ [id] } := by
  have listed := relists_update_class { p with
      methods := p.methods.insert id { method with owner }, index := p.index.insertMethod key id } owner
    (fun c => { c with methods := c.methods ++ [id] })
    (fun n => { n with methods := n.methods ++ [id] }) (fun _ => rfl) fun _ => rfl
  exact ⟨listed.keepsName, listed.index, listed.counter, listed.classIds, listed.naming⟩

theorem method_naming?_place_method (key : String) (method : Method) (i : MethodId) :
    (p.placeMethod id owner key method).methodNaming? i =
      if id = i then some ⟨owner, method.name, method.descriptor⟩ else p.methodNaming? i := by
  have placed : (p.placeMethod id owner key method).method? i =
      if id = i then some { method with owner } else p.method? i := Table.get?_insert p.methods id i _
  rw [methodNaming?, placed, apply_ite (Option.map Method.naming)]
  rfl

theorem method_members_place_method (name : String) (method : Method)
    (live : p.className? owner = some name) :
    (p.placeMethod id owner (Key.method name method.name method.descriptor) method).methodMembers =
      p.methodMembers.attach id owner (Key.method name method.name method.descriptor) := by
  have relists :=
    relists_place_method p id owner (Key.method name method.name method.descriptor) method
  apply Members.ext
  · rfl
  · intro i
    change
      (p.placeMethod id owner (Key.method name method.name method.descriptor) method).methodKey? i =
      if i = id then some (Key.method name method.name method.descriptor) else p.methodKey? i
    rw [method_key_eq, method_naming?_place_method]
    simp only [relists.class_name]
    by_cases same : i = id
    · rw [if_pos same.symm, if_pos same]
      exact congrArg (Option.map _) live
    · rw [if_neg (Ne.symm same), if_neg same]
      exact (method_key_eq p i).symm
  · intro i
    change
      ((p.placeMethod id owner (Key.method name method.name method.descriptor) method).methodNaming? i).map
        (·.owner) = if i = id then some owner else (p.methodNaming? i).map (·.owner)
    rw [method_naming?_place_method, apply_ite (Option.map _)]
    exact if_congr eq_comm rfl rfl
  · exact relists.lists ClassNaming.methods (· ++ [id]) fun _ => rfl

theorem indexed_place_method (name : String) (method : Method) (indexed : p.Indexed)
    (live : p.className? owner = some name) (absent : p.method? id = none)
    (free : p.findMethodKey? (Key.method name method.name method.descriptor) = none)
    (plain : Undotted method.name) (fresh : id.val < p.nextId) :
    (p.placeMethod id owner (Key.method name method.name method.descriptor) method).Indexed := by
  have keyless : p.methodKey? id = none := by rw [methodKey?, absent]; rfl
  have relists :=
    relists_place_method p id owner (Key.method name method.name method.descriptor) method
  obtain ⟨classIndex, classNames, classOrder, plainClass, freshClass⟩ := relists.classes indexed
  have placed := Members.agree_attach p.methodMembers id owner _ indexed.methods keyless free
  rw [← method_members_place_method p id owner name method live] at placed
  have others := indexed.fields
  rw [← relists.field_members rfl (fun _ => rfl) fun _ => rfl] at others
  refine { indexed with
    classIndex, classNames, classOrder, plainClass, freshClass
    methods := placed, fields := others, methodOrder := ?_, plainMethod := ?_, freshMethod := ?_ }
  · exact Table.ordered_insert _ _ _ indexed.methodOrder
  · intro i n present
    rw [method_naming?_place_method] at present
    by_cases same : id = i
    · rw [if_pos same] at present
      cases present
      exact plain
    · rw [if_neg same] at present
      exact indexed.plainMethod i n present
  · intro i present
    rw [method_naming?_place_method] at present
    by_cases same : id = i
    · exact same ▸ fresh
    · rw [if_neg same] at present
      exact indexed.freshMethod i present

end Methods

end Program

end JvmEdit
