import JvmEdit.Libraries.Standard
import JvmEdit.Proofs.Hierarchy.Revert
import JvmEdit.Proofs.Index.Session
set_option autoImplicit false

namespace JvmEdit

namespace Program

theorem first_repeated?_of_nodup (keys seen : List String) (unique : keys.Nodup)
    (apart : ∀ key ∈ keys, key ∉ seen) : firstRepeated? keys seen = none := by
  induction keys generalizing seen with
  | nil => rfl
  | cons key keys ih =>
      obtain ⟨fresh, unique⟩ := List.nodup_cons.mp unique
      have new : ¬seen.contains key = true := by simpa using apart key List.mem_cons_self
      rw [firstRepeated?, if_neg new]
      refine ih (key :: seen) unique fun other member seenToo => ?_
      rcases List.mem_cons.mp seenToo with rfl | earlier
      · exact fresh member
      · exact apart other (List.mem_cons_of_mem _ member) earlier

section Renaming

variable (p : Program) (id : ClassId) (r : Renaming)

theorem method_keys_after_distinct (indexed : p.Indexed) (free : p.findClass? r.new = none)
    (plain : Undotted r.new) (faithful : ∀ m ∈ p.methods.values, ∀ m' ∈ p.methods.values,
      r.descriptor m.descriptor = r.descriptor m'.descriptor → m.descriptor = m'.descriptor) :
    firstRepeated? (p.methodKeysAfter r id) [] = none := by
  refine first_repeated?_of_nodup _ [] ?_ fun _ _ => List.not_mem_nil
  rw [method_keys_after_eq p id r indexed.methodOrder]
  refine List.Nodup.map_on ?_ (Table.keys_nodup _ indexed.methodOrder)
  intro v member w member' same
  obtain ⟨m, found⟩ := (Table.mem_keys_iff _ _).mp member
  obtain ⟨m', found'⟩ := (Table.mem_keys_iff _ _).mp member'
  obtain ⟨owner, ownerLive, held⟩ := indexed.method_key v m found
  obtain ⟨owner', ownerLive', held'⟩ := indexed.method_key w m' found'
  obtain ⟨after, named⟩ := name_after_live p id r.new m.owner (by rw [ownerLive]; rfl)
  obtain ⟨after', named'⟩ := name_after_live p id r.new m'.owner (by rw [ownerLive']; rfl)
  have naming : p.methodNaming? v = some m.naming := congrArg (Option.map Method.naming) found
  have naming' : p.methodNaming? w = some m'.naming := congrArg (Option.map Method.naming) found'
  rw [method_key_under_eq p id r.new r.descriptor v m.naming after naming named,
    method_key_under_eq p id r.new r.descriptor w m'.naming after' naming' named'] at same
  obtain ⟨owners, names, descriptors⟩ := Key.method_injective _ _ _ _ _ _
    (plain_name_after p id indexed r.new plain _ _ named)
    (plain_name_after p id indexed r.new plain _ _ named')
    (indexed.plainMethod v _ naming) (indexed.plainMethod w _ naming') same
  have sameOwner : m.owner = m'.owner :=
    name_after_injective p id indexed r.new free _ _ after named (owners ▸ named')
  have sameDescriptor := faithful m (List.mem_map_of_mem (Table.mem_of_find _ _ _ found)) m'
    (List.mem_map_of_mem (Table.mem_of_find _ _ _ found')) descriptors
  have sameName : m.name = m'.name := names
  rw [sameOwner, ownerLive'] at ownerLive
  cases ownerLive
  rw [sameName, sameDescriptor] at held
  exact Table.inverse_unique _ _ indexed.methods.inverse _ v w held held'

theorem rename_class_eq (indexed : p.Indexed) (live : p.className? id = some r.old)
    (differ : r.old ≠ r.new) (free : p.findClass? r.new = none)
    (distinct : firstRepeated? (p.methodKeysAfter r id) [] = none) :
    p.renameClass id r.new = .ok (p.renamedTo id r) := by
  have steps := renamed_steps p id r indexed.is_owned (Table.keys_nodup _ indexed.classOrder)
    (Table.keys_nodup _ indexed.fieldOrder) (Table.keys_nodup _ indexed.methodOrder) differ live
  simp only [renameClass, live]
  rw [if_neg differ, if_neg (by simp [free]), distinct]
  exact congrArg (fun q => Except.ok (q.relinkClass id)) steps

end Renaming

theorem index_eq (p q : Program) (indexed : p.Indexed) (indexed' : q.Indexed)
    (classes : q.className? = p.className?) (fields : q.fieldKey? = p.fieldKey?)
    (methods : q.methodKey? = p.methodKey?) : q.index = p.index := by
  have classTables : q.index.classes = p.index.classes :=
    Table.eq_of_inverse _ _ p.className? indexed'.classIndex indexed.classIndex
      (classes ▸ indexed'.classNames) indexed.classNames
  have fieldTables : q.index.fields = p.index.fields :=
    Table.eq_of_inverse _ _ p.fieldKey? indexed'.fields.ordered indexed.fields.ordered
      (fields ▸ indexed'.fields.inverse) indexed.fields.inverse
  have methodTables : q.index.methods = p.index.methods :=
    Table.eq_of_inverse _ _ p.methodKey? indexed'.methods.ordered indexed.methods.ordered
      (methods ▸ indexed'.methods.inverse) indexed.methods.inverse
  cases isP : p.index
  cases isQ : q.index
  simp_all

theorem eq_of_parts (p q : Program) (settings : q.settings = p.settings) (nextId : q.nextId = p.nextId)
    (index : q.index = p.index) (classes : q.classes = p.classes) (fields : q.fields = p.fields)
    (methods : q.methods = p.methods) : q = p := by
  cases p
  cases q
  simp_all

section Back

variable (p : Program) (id : ClassId) (r : Renaming)

theorem class_name?_back (live : p.className? id = some r.old) :
    ((p.renamedTo id r).renamedTo id r.back).className? = p.className? := by
  funext c
  have liveNow : (p.renamedTo id r).className? id = some r.back.old := by
    rw [class_name?_renamed_to p id r live, nameAfter, if_pos rfl]
    rfl
  rw [class_name?_renamed_to _ id r.back liveNow, nameAfter, class_name?_renamed_to p id r live, nameAfter]
  by_cases isId : c = id
  · rw [if_pos isId, isId, live]
    rfl
  · rw [if_neg isId, if_neg isId]

theorem fields_back (legal : InternalName r.new) (avoids : p.Avoids r.new) :
    ((p.renamedTo id r).renamedTo id r.back).fields = p.fields := by
  rw [fields_renamed_to, fields_renamed_to]
  exact Table.map_values_back _ _ _ fun f member => r.field_text_back legal f (avoids.fields f member)

theorem methods_back (legal : InternalName r.new) (avoids : p.Avoids r.new) :
    ((p.renamedTo id r).renamedTo id r.back).methods = p.methods := by
  rw [methods_renamed_to, methods_renamed_to]
  exact Table.map_values_back _ _ _ fun m member => r.method_text_back legal m (avoids.methods m member)

theorem unlinked_back (live : p.className? id = some r.old) (legal : InternalName r.new)
    (avoids : p.Avoids r.new) (c : ClassId) :
    (((p.renamedTo id r).renamedTo id r.back).class? c).map Class.unlinked =
      (p.class? c).map Class.unlinked := by
  rw [unlinked_renamed_to, unlinked_renamed_to]
  refine option_map_back _ _ _ fun header isHeader => ?_
  obtain ⟨d, found, rfl⟩ := Option.map_eq_some_iff.mp isHeader
  have clear : d.unlinked.Avoids r.new :=
    have known := avoids.classes d (List.mem_map_of_mem (Table.mem_of_find _ _ _ found))
    ⟨known.superName, known.interfaces, known.signature, known.annotations, known.bootstrapMethods⟩
  have restored := r.class_header_back legal d.unlinked clear
  by_cases isId : id = c
  · have isOld : d.name = r.old := by
      subst isId
      rw [className?, found] at live
      exact Option.some.inj live
    simp only [headerAfter, if_pos isId]
    refine Eq.trans ?_ restored
    simp [Renaming.classHeader, Class.unlinked, Renaming.back, isOld]
  · simp only [headerAfter, if_neg isId]
    exact restored

end Back

-- A name that no class bears and nothing mentions can be given to any class, and taken from it again.
section Unused

variable (p : Program) (id : ClassId) (r : Renaming) (indexed : p.Indexed)
  (live : p.className? id = some r.old) (legal : InternalName r.new)
  (free : p.findClass? r.new = none) (avoids : p.Avoids r.new)

include indexed live

theorem undotted_old : Undotted r.old := by
  obtain ⟨c, found, isOld⟩ := class_name_live p id r.old live
  rw [← isOld]
  exact indexed.plainClass id c.naming (congrArg (Option.map Class.naming) found)

include free in
theorem old_ne_new : r.old ≠ r.new := fun same => by
  rw [findClass?, ← same, (indexed.classNames r.old id).mpr live] at free
  cases free

include legal free avoids

theorem rename_class_unused : p.renameClass id r.new = .ok (p.renamedTo id r) := by
  have plain : Undotted r.new := fun dot => (legal.2 '.' dot).1 rfl
  have restored : ∀ m ∈ p.methods.values, r.back.descriptor (r.descriptor m.descriptor) = m.descriptor :=
    fun m member => r.descriptor_back legal m.descriptor (avoids.methods m member).descriptor
  refine rename_class_eq p id r indexed live (old_ne_new p id r indexed live free) free ?_
  refine method_keys_after_distinct p id r indexed free plain fun m member m' member' same => ?_
  rw [← restored m member, same, restored m' member']

theorem indexed_renamed_to : (p.renamedTo id r).Indexed :=
  indexed_rename_class p _ id r.new indexed (fun dot => (legal.2 '.' dot).1 rfl)
    (rename_class_unused p id r indexed live legal free avoids)

theorem find_class?_given_up : (p.renamedTo id r).findClass? r.old = none := by
  refine Option.eq_none_iff_forall_ne_some.mpr fun c found => ?_
  have indexedThen := indexed_renamed_to p id r indexed live legal free avoids
  have named := (indexedThen.classNames r.old c).mp found
  rw [class_name?_renamed_to p id r live, nameAfter] at named
  split at named
  · exact old_ne_new p id r indexed live free (Option.some.inj named).symm
  · rename_i other
    exact other (Table.inverse_unique _ _ indexed.classNames r.old c id named live)

theorem rename_class_again :
    (p.renamedTo id r).renameClass id r.old = .ok ((p.renamedTo id r).renamedTo id r.back) := by
  have indexedThen := indexed_renamed_to p id r indexed live legal free avoids
  have liveThen : (p.renamedTo id r).className? id = some r.new := by
    rw [class_name?_renamed_to p id r live, nameAfter, if_pos rfl]
  have freeThen := find_class?_given_up p id r indexed live legal free avoids
  have differ := (old_ne_new p id r indexed live free).symm
  refine rename_class_eq _ id r.back indexedThen liveThen differ freeThen ?_
  refine method_keys_after_distinct _ id r.back indexedThen freeThen
    (undotted_old p id r indexed live) ?_
  intro m member m' member' same
  rw [methods_renamed_to, Table.values_map_values] at member member'
  obtain ⟨n, original, rfl⟩ := List.mem_map.mp member
  obtain ⟨n', original', rfl⟩ := List.mem_map.mp member'
  have restored := r.descriptor_back legal n.descriptor (avoids.methods n original).descriptor
  have restored' := r.descriptor_back legal n'.descriptor (avoids.methods n' original').descriptor
  exact congrArg r.descriptor (restored.symm.trans (same.trans restored'))

theorem index_back : ((p.renamedTo id r).renamedTo id r.back).index = p.index := by
  have indexedBack := indexed_rename_class _ _ id r.old (indexed_renamed_to p id r indexed live legal free avoids)
    (undotted_old p id r indexed live)
    (rename_class_again p id r indexed live legal free avoids)
  have names := class_name?_back p id r live
  refine index_eq p _ indexed indexedBack names ?_ ?_
  · funext i
    rw [fieldKey?, field?, fields_back p id r legal avoids, names, fieldKey?, field?]
  · funext i
    rw [methodKey?, method?, methods_back p id r legal avoids, names, methodKey?, method?]

theorem classes_back (links : p.LinksExact) :
    ((p.renamedTo id r).renamedTo id r.back).classes = p.classes := by
  have found : ((p.renamedTo id r).renamed id r.back).findClass? = p.findClass? := by
    funext name
    rw [← (same_parents_relink_class ((p.renamedTo id r).renamed id r.back) id).find_class]
    change ((p.renamedTo id r).renamedTo id r.back).findClass? name = p.findClass? name
    rw [findClass?, index_back p id r indexed live legal free avoids, findClass?]
  have unnamed : p.ClassesIndexed := ⟨indexed.classNames, indexed.classOrder, fun c alive =>
    indexed.freshClass c (by rwa [class_name_eq, Option.isSome_map] at alive)⟩
  have matched := (linked_iff p unnamed).mp links.linked
  have ordered : ((p.renamedTo id r).renamedTo id r.back).classes.Ordered :=
    (congrArg (List.Pairwise (· < ·)) ((class_ids_renamed_to _ id r.back).trans
      (class_ids_renamed_to p id r))).mpr indexed.classOrder
  exact classes_eq p _ indexed.classOrder ordered links.sorted
    (links_sorted_renamed_to _ id r.back (links_sorted_renamed_to p id r links.sorted))
    (unlinked_back p id r live legal avoids)
    (lists_back p id r unnamed matched legal avoids live found)

theorem renamed_to_back (links : p.LinksExact) : (p.renamedTo id r).renamedTo id r.back = p := by
  obtain ⟨settings, nextId⟩ := frame_renamed_to p id r
  obtain ⟨settingsBack, nextIdBack⟩ := frame_renamed_to (p.renamedTo id r) id r.back
  exact eq_of_parts p _ (settingsBack.trans settings) (nextIdBack.trans nextId)
    (index_back p id r indexed live legal free avoids)
    (classes_back p id r indexed live legal free avoids links)
    (fields_back p id r legal avoids) (methods_back p id r legal avoids)

end Unused

-- Renaming a class to a name that is new to the program succeeds, and so does renaming it back, after
-- which the program is the one it was.
theorem rename_class_back (p : Program) (id : ClassId) (old new : String) (indexed : p.Indexed)
    (links : p.LinksExact) (live : p.className? id = some old) (legal : InternalName new)
    (free : p.findClass? new = none) (avoids : p.Avoids new) :
    ∃ q, p.renameClass id new = .ok q ∧ q.renameClass id old = .ok p := by
  have there := rename_class_unused p id ⟨old, new⟩ indexed live legal free avoids
  have back := rename_class_again p id ⟨old, new⟩ indexed live legal free avoids
  rw [renamed_to_back p id ⟨old, new⟩ indexed live legal free avoids links] at back
  exact ⟨_, there, back⟩

theorem links_exact_of_rows (p : Program) (subclasses : ∀ c ∈ p.classes.values,
      c.subclasses = .ofList (p.classesWhere (·.extends? c.name)))
    (implementers : ∀ c ∈ p.classes.values,
      c.implementers = .ofList (p.classesWhere (·.implements c.name))) : p.LinksExact where
  subclasses := fun _ c found => subclasses c (List.mem_map_of_mem (Table.mem_of_find _ _ _ found))
  implementers := fun _ c found => implementers c (List.mem_map_of_mem (Table.mem_of_find _ _ _ found))

-- `B` extends `A`, names it in a signature, in the descriptors of its members, in a constant, in a
-- handler, in an array type and in a call; `A` has got its name, and with it its links, by a renaming.
def mentioning : List SessionAction :=
  let header (name superName : String) (interfaces : List String) (signature : Option String) :
      SessionAction :=
    .visit 0 (.header ⟨name, some superName, interfaces, signature, default, 52, [.named "A" []], []⟩)
  let code (opcode : Opcode) (operand : Operand) : SessionAction := .visit 0 (.instruction opcode operand)
  [.openBuilder, header "Base" "java/lang/Object" [] none,
    .visit 0 (.method ⟨"m", "([LA;)V", none, default, [], []⟩),
    header "B" "A" ["I", "A"] (some "Ljava/util/List<LA.In<[LA;>;>;"),
    .visit 0 (.field ⟨"x", "[[LA;", none, default, some (.classRef "[LA;"), []⟩),
    .visit 0 (.method ⟨"m", "([LA;)V", none, default, ["A"], []⟩),
    .visit 0 .newLabel, code 0xff (.label ⟨0⟩),
    code .checkCast (.type "[LA;"),
    code .invokeVirtual (.call ⟨"A", "m", "([LA;)V", false, .virtual⟩),
    .visit 0 (.tryRange ⟨⟨0⟩, ⟨0⟩, ⟨0⟩, some "A"⟩), .visit 0 (.methodEnd none none),
    .visit 0 .classEnd, .renameClass ⟨1⟩ "A"]

theorem rename_class_back_mentioning :
    let p := ((Session.start {}).run mentioning).program.resolveAll.1
    ((∀ action ∈ mentioning, action.Plain) ∧ p.className? ⟨1⟩ = some "A" ∧ InternalName "n/A" ∧
        p.findClass? "n/A" = none ∧ p.Avoids "n/A") ∧
      ∃ q, p.renameClass ⟨1⟩ "n/A" = .ok q ∧ q.renameClass ⟨1⟩ "A" = .ok p := by
  intro p
  have plain : ∀ action ∈ mentioning, action.Plain := by decide
  have indexed : p.Indexed := indexed_same_names _ _ (same_names_resolve_all _)
    (Session.indexed_run _ mentioning (Session.indexed_start {}) plain)
  have links : p.LinksExact := links_exact_of_rows p (by decide) (by decide)
  have live : p.className? ⟨1⟩ = some "A" := by decide
  have legal : InternalName "n/A" := by decide
  have free : p.findClass? "n/A" = none := by decide
  have avoids : p.Avoids "n/A" := by decide
  obtain ⟨q, there, back⟩ := rename_class_back p ⟨1⟩ "A" "n/A" indexed links live legal free avoids
  exact ⟨⟨plain, live, legal, free, avoids⟩, q, there, back⟩

theorem index_exact_of_rows (p : Program)
    (classes : ∀ row ∈ p.classes.toList, p.index.classes.keysOf row.1 = [row.2.name] ∧
      (row.2.fields.Nodup ∧ ∀ i ∈ row.2.fields, ((p.field? i).any (·.owner = row.1)) = true) ∧
      row.2.methods.Nodup ∧ ∀ i ∈ row.2.methods, ((p.method? i).any (·.owner = row.1)) = true)
    (fields : ∀ row ∈ p.fields.toList, ((p.class? row.2.owner).any fun owner =>
      p.index.fields.keysOf row.1 = [Key.field owner.name row.2.name] ∧ row.1 ∈ owner.fields) = true)
    (methods : ∀ row ∈ p.methods.toList, ((p.class? row.2.owner).any fun owner =>
      p.index.methods.keysOf row.1 = [Key.method owner.name row.2.name row.2.descriptor] ∧
        row.1 ∈ owner.methods) = true)
    (classRows : ∀ row ∈ p.index.classes.toList, p.className? row.2 = some row.1)
    (fieldRows : ∀ row ∈ p.index.fields.toList, p.fieldKey? row.2 = some row.1)
    (methodRows : ∀ row ∈ p.index.methods.toList, p.methodKey? row.2 = some row.1) :
    p.IndexExact where
  classKeys := fun _ _ found => (classes _ (Table.mem_of_find _ _ _ found)).1
  fieldKeys := fun id f found => by
    obtain ⟨owner, live, held⟩ := (Option.any_eq_true ..).mp (fields _ (Table.mem_of_find _ _ _ found))
    exact ⟨owner, live, (of_decide_eq_true held).1⟩
  methodKeys := fun id m found => by
    obtain ⟨owner, live, held⟩ := (Option.any_eq_true ..).mp (methods _ (Table.mem_of_find _ _ _ found))
    exact ⟨owner, live, (of_decide_eq_true held).1⟩
  classRows := fun name id row => by
    obtain ⟨c, live, same⟩ := class_name_live p id name (classRows _ row)
    exact ⟨c, live, same.symm⟩
  fieldRows := fun key id row => field_key_live p id key (fieldRows _ row)
  methodRows := fun key id row => method_key_live p id key (methodRows _ row)
  fieldLists := fun id c found => by
    obtain ⟨_, ⟨unique, owned⟩, _⟩ := classes _ (Table.mem_of_find _ _ _ found)
    refine ⟨unique, fun i => ⟨fun member => ?_, ?_⟩⟩
    · obtain ⟨f, live, isOwner⟩ := (Option.any_eq_true ..).mp (owned i member)
      exact ⟨f, live, of_decide_eq_true isOwner⟩
    · rintro ⟨f, live, rfl⟩
      obtain ⟨owner, ownerLive, held⟩ :=
        (Option.any_eq_true ..).mp (fields _ (Table.mem_of_find _ _ _ live))
      cases found.symm.trans ownerLive
      exact (of_decide_eq_true held).2
  methodLists := fun id c found => by
    obtain ⟨_, _, unique, owned⟩ := classes _ (Table.mem_of_find _ _ _ found)
    refine ⟨unique, fun i => ⟨fun member => ?_, ?_⟩⟩
    · obtain ⟨m, live, isOwner⟩ := (Option.any_eq_true ..).mp (owned i member)
      exact ⟨m, live, of_decide_eq_true isOwner⟩
    · rintro ⟨m, live, rfl⟩
      obtain ⟨owner, ownerLive, held⟩ :=
        (Option.any_eq_true ..).mp (methods _ (Table.mem_of_find _ _ _ live))
      cases found.symm.trans ownerLive
      exact (of_decide_eq_true held).2

-- The method `m.n` of `A` and the method `n` of `B.m`. Once `A` is named `B`, they have one key.
def dotted : List SessionAction :=
  let load (owner name : String) : List SessionAction :=
    [.visit 0 (.header ⟨owner, none, [], none, default, 52, [], []⟩),
      .visit 0 (.method ⟨name, "()V", none, default, [], []⟩), .visit 0 .classEnd]
  .openBuilder :: load "A" "m.n" ++ load "B.m" "n"

theorem rename_class_dotted :
    let p := ((Session.start {}).run dotted).program
    (p.IndexExact ∧ p.LinksExact ∧ p.className? ⟨1⟩ = some "A" ∧ InternalName "A" ∧ InternalName "B" ∧
        p.findClass? "B" = none ∧ p.Avoids "B") ∧
      p.renameClass ⟨1⟩ "B" = .error (.nameTaken "B.m.n.()V") := by
  intro p
  have index : p.IndexExact := index_exact_of_rows p (by decide) (by decide) (by decide) (by decide)
    (by decide) (by decide)
  have links : p.LinksExact := links_exact_of_rows p (by decide) (by decide)
  exact ⟨⟨index, links, by decide, by decide, by decide, by decide, by decide⟩, by decide⟩

end Program

end JvmEdit
