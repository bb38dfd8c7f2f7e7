import JvmEdit.Proofs.Hierarchy.Relink
import JvmEdit.Proofs.Program.Avoids
set_option autoImplicit false

namespace JvmEdit

theorem Class.eq_of_unlinked (c d : Class) (unlinked : c.unlinked = d.unlinked)
    (children : ∀ k : Parentage, k.children c = k.children d) : c = d := by
  have subclasses : c.subclasses = d.subclasses := children .superclass
  have implementers : c.implementers = d.implementers := children .interface
  cases c
  cases d
  simp only [Class.unlinked, Class.mk.injEq] at unlinked ⊢
  simp_all

namespace Program

-- Every class lists the loaded classes that name it as their superclass, and those that name it among
-- their interfaces, in the form that a search through all classes gives.
structure LinksExact (p : Program) : Prop where
  subclasses : ∀ id c, p.class? id = some c →
    c.subclasses = .ofList (p.classesWhere (·.extends? c.name))
  implementers : ∀ id c, p.class? id = some c →
    c.implementers = .ofList (p.classesWhere (·.implements c.name))

def LinksSorted (p : Program) : Prop :=
  ∀ id c, p.class? id = some c → ∀ k : Parentage, (k.children c).Sorted

theorem LinksExact.linked {p : Program} (exactly : p.LinksExact) : p.Linked where
  subclasses := fun id c live child => by
    rw [exactly.subclasses id c live, OrderedSet.mem_of_list, mem_classes_where]
    simp [Class.extends?]
  implementers := fun id c live child => by
    rw [exactly.implementers id c live, OrderedSet.mem_of_list, mem_classes_where]
    simp [Class.implements]

theorem LinksExact.sorted {p : Program} (exactly : p.LinksExact) : p.LinksSorted := by
  intro id c live k
  cases k with
  | superclass =>
      rw [Parentage.children, exactly.subclasses id c live]
      exact OrderedSet.sorted_of_list _
  | interface =>
      rw [Parentage.children, exactly.implementers id c live]
      exact OrderedSet.sorted_of_list _

section Sorted

variable (p : Program)

theorem links_sorted_update_class (id : ClassId) (f : Class → Class)
    (keeps : ∀ k c, (k.children c).Sorted → (Parentage.children k (f c)).Sorted)
    (sorted : p.LinksSorted) : (p.updateClass id f).LinksSorted := by
  intro other c found k
  rw [class?_update_class] at found
  split at found
  · obtain ⟨d, live, rfl⟩ := Option.map_eq_some_iff.mp found
    exact keeps k d (sorted other d live k)
  · exact sorted other c found k

theorem links_sorted_change_links (k : Parentage) (f : OrderedSet ClassId → OrderedSet ClassId)
    (parents : List ClassId) (keeps : ∀ set : OrderedSet ClassId, set.Sorted → (f set).Sorted)
    (sorted : p.LinksSorted) : (p.changeLinks k f parents).LinksSorted := by
  refine List.foldlRecOn parents _ sorted fun q sorted parent _ => ?_
  refine links_sorted_update_class q parent _ (fun k' c set => ?_) sorted
  rw [Parentage.children_change]
  split
  · exact keeps _ set
  · exact set

theorem links_sorted_link_class (id : ClassId) (sorted : p.LinksSorted) :
    (p.linkClass id).LinksSorted := by
  have keeps : ∀ set : OrderedSet ClassId, set.Sorted → (set.insert id).Sorted := fun set sorted =>
    set.sorted_insert id sorted
  rw [link_class_eq]
  exact links_sorted_change_links _ _ _ _ keeps (links_sorted_change_links p _ _ _ keeps sorted)

theorem links_sorted_unlink_class (id : ClassId) (sorted : p.LinksSorted) :
    (p.unlinkClass id).LinksSorted := by
  have keeps : ∀ set : OrderedSet ClassId, set.Sorted → (set.erase id).Sorted := fun set sorted =>
    set.sorted_erase id sorted
  rw [unlink_class_eq]
  exact links_sorted_change_links _ _ _ _ keeps (links_sorted_change_links p _ _ _ keeps sorted)

theorem links_sorted_relink_class (id : ClassId) (sorted : p.LinksSorted) :
    (p.relinkClass id).LinksSorted := by
  have linked := links_sorted_link_class p id sorted
  simp only [relinkClass]
  split
  · exact linked
  · refine links_sorted_update_class _ id _ (fun k c _ => ?_) linked
    cases k <;> exact OrderedSet.sorted_of_list _

theorem links_sorted_renamed (id : ClassId) (r : Renaming) (sorted : p.LinksSorted) :
    (p.renamed id r).LinksSorted := by
  intro c d found k
  rw [show (p.renamed id r).class? c = (p.headed id r).class? c from rfl, class?_headed] at found
  split at found <;>
    · obtain ⟨e, live, rfl⟩ := Option.map_eq_some_iff.mp found
      have kept := links_sorted_unlink_class p id sorted c e live k
      cases k <;> exact kept

end Sorted

theorem relink_class_classes (p : Program) (id : ClassId) :
    ∃ classes, p.relinkClass id = { p with classes } := by
  obtain ⟨classes, linked⟩ : ∃ classes, p.linkClass id = { p with classes } :=
    update_parents_classes p id _ _
  simp only [relinkClass]
  split
  · exact ⟨classes, linked⟩
  · rw [linked]
    exact ⟨_, rfl⟩

-- The program with a class renamed everywhere and linked under its new name.
def renamedTo (p : Program) (id : ClassId) (r : Renaming) : Program := (p.renamed id r).relinkClass id

section RenamedTo

variable (p : Program) (id : ClassId) (r : Renaming)

theorem fields_renamed_to : (p.renamedTo id r).fields = p.fields.mapValues r.fieldText := by
  obtain ⟨classes, frame⟩ := relink_class_classes (p.renamed id r) id
  rw [renamedTo, frame]
  rfl

theorem methods_renamed_to : (p.renamedTo id r).methods = p.methods.mapValues r.methodText := by
  obtain ⟨classes, frame⟩ := relink_class_classes (p.renamed id r) id
  rw [renamedTo, frame]
  rfl

theorem frame_renamed_to : (p.renamedTo id r).settings = p.settings ∧
    (p.renamedTo id r).nextId = p.nextId := by
  obtain ⟨classes, frame⟩ := relink_class_classes (p.renamed id r) id
  obtain ⟨classes', frame'⟩ := unlink_class_classes p id
  rw [renamedTo, frame, renamed, frame']
  exact ⟨rfl, rfl⟩

theorem class_ids_renamed_to : (p.renamedTo id r).classIds = p.classIds := by
  have keys : (p.renamed id r).classIds = p.classIds :=
    (Table.keys_map_values _ _).trans ((Table.keys_modify _ _ _).trans
      (same_parents_unlink_class p id).classIds)
  exact (same_parents_relink_class (p.renamed id r) id).classIds.trans keys

theorem class_name?_renamed_to (live : p.className? id = some r.old) (c : ClassId) :
    (p.renamedTo id r).className? c = p.nameAfter id r.new c := by
  rw [renamedTo, (same_parents_relink_class (p.renamed id r) id).class_name, class_name?_renamed p id r live]

theorem links_sorted_renamed_to (sorted : p.LinksSorted) : (p.renamedTo id r).LinksSorted :=
  links_sorted_relink_class _ id (links_sorted_renamed p id r sorted)

-- A class without its links, once the class `id` is renamed.
def headerAfter (c : ClassId) (header : Class) : Class :=
  r.classHeader (if id = c then { header with name := r.new } else header)

theorem unlinked_renamed_to (c : ClassId) : ((p.renamedTo id r).class? c).map Class.unlinked =
    ((p.class? c).map Class.unlinked).map (headerAfter id r c) := by
  rw [renamedTo, (same_parents_relink_class (p.renamed id r) id).classes,
    ← (same_parents_unlink_class p id).classes,
    show (p.renamed id r).class? c = (p.headed id r).class? c from rfl, class?_headed]
  by_cases isId : id = c
  · rw [if_pos isId, Option.map_map, Option.map_map]
    congr 1
    funext d
    simp [headerAfter, isId, Class.unlinked, Renaming.classHeader]
  · rw [if_neg isId, Option.map_map, Option.map_map]
    congr 1
    funext d
    simp [headerAfter, isId, Class.unlinked, Renaming.classHeader]

theorem lists_renamed_to (live : p.className? id = some r.old) (k : Parentage) (parent child : ClassId) :
    (p.renamedTo id r).Lists k parent child ↔
      if parent = id then r.new ∈ (p.renamed id r).givenParents k child
      else p.Lists k parent child ∧ ¬(child = id ∧ parent ∈ p.parents k id) ∨
        child = id ∧ parent ∈ (p.renamed id r).parents k id ∧ (p.className? parent).isSome := by
  have named : (p.renamed id r).className? id = some r.new := by
    rw [class_name?_renamed p id r live, nameAfter, if_pos rfl]
  have alive : ((p.renamed id r).class? parent).isSome =
      (if parent = id then true else (p.className? parent).isSome) := by
    have names := congrArg Option.isSome (class_name?_renamed p id r live parent)
    rw [className?, Option.isSome_map] at names
    rw [names, nameAfter]
    split <;> rfl
  have unlinked : (p.renamed id r).Lists k parent child ↔ (p.unlinkClass id).Lists k parent child :=
    lists_headed p id r k parent child
  rw [renamedTo, lists_relink_class _ id r.new named, unlinked, lists_unlink_class, alive]
  by_cases isId : parent = id
  · rw [if_pos isId, if_pos isId]
  · rw [if_neg isId, if_neg isId, if_neg isId]

theorem given_parents_renamed (k : Parentage) (child : ClassId) :
    (p.renamed id r).givenParents k child = (p.givenParents k child).map r.internal :=
  given_parents_headed p id r k child

theorem given_parents_renamed_to (k : Parentage) (child : ClassId) :
    (p.renamedTo id r).givenParents k child = (p.givenParents k child).map r.internal :=
  ((same_parents_relink_class (p.renamed id r) id).given_parents k child).trans
    (given_parents_renamed p id r k child)

end RenamedTo

section Back

variable (p : Program) (id : ClassId) (r : Renaming)

theorem given_parents_back (legal : InternalName r.new) (avoids : p.Avoids r.new) (k : Parentage)
    (child : ClassId) :
    ((p.renamedTo id r).renamed id r.back).givenParents k child = p.givenParents k child := by
  rw [given_parents_renamed, given_parents_renamed_to]
  refine map_back _ _ _ fun name member => r.internal_back legal name ?_
  obtain ⟨d, live, isParent⟩ := (mem_given_parents p k child name).mp member
  have clear := avoids.classes d (List.mem_map_of_mem (Table.mem_of_find _ _ _ live))
  cases k with
  | superclass => exact clear.superName name (Option.mem_toList.mp isParent)
  | interface => exact clear.interfaces name isParent

theorem lists_back (indexed : p.ClassesIndexed) (matched : p.Matched) (legal : InternalName r.new)
    (avoids : p.Avoids r.new) (live : p.className? id = some r.old)
    (names : ((p.renamedTo id r).renamed id r.back).findClass? = p.findClass?) (k : Parentage)
    (parent child : ClassId) :
    ((p.renamedTo id r).renamedTo id r.back).Lists k parent child ↔ p.Lists k parent child := by
  have liveNow : (p.renamedTo id r).className? id = some r.new := by
    rw [class_name?_renamed_to p id r live, nameAfter, if_pos rfl]
  have parents : ((p.renamedTo id r).renamed id r.back).parents k id = p.parents k id := by
    rw [Program.parents, given_parents_back p id r legal avoids, names, Program.parents]
  rw [lists_renamed_to _ id r.back liveNow, given_parents_back p id r legal avoids, parents]
  by_cases isId : parent = id
  · subst isId
    obtain ⟨c, found, isOld⟩ := Option.map_eq_some_iff.mp live
    rw [if_pos rfl, matched, mem_parents_iff p indexed k parent child c found, ← mem_given_parents, isOld]
    rfl
  · have between := lists_renamed_to p id r live k parent child
    rw [if_neg isId] at between ⊢
    have parentsNow : (p.renamedTo id r).parents k id = (p.renamed id r).parents k id :=
      (same_parents_relink_class (p.renamed id r) id).parents k id
    have nameNow : (p.renamedTo id r).className? parent = p.className? parent := by
      rw [class_name?_renamed_to p id r live, nameAfter, if_neg isId]
    rw [between, parentsNow, nameNow, matched]
    by_cases isChild : child = id
    · subst isChild
      have alive : parent ∈ p.parents k child → (p.className? parent).isSome := fun member => by
        rw [className?, Option.isSome_map]
        exact parent_live p indexed k parent child member
      grind
    · simp [isChild]

end Back

theorem classes_eq (p q : Program) (ordered : p.classes.Ordered) (ordered' : q.classes.Ordered)
    (sorted : p.LinksSorted) (sorted' : q.LinksSorted)
    (unlinked : ∀ c, (q.class? c).map Class.unlinked = (p.class? c).map Class.unlinked)
    (lists : ∀ k parent child, q.Lists k parent child ↔ p.Lists k parent child) :
    q.classes = p.classes := by
  refine Table.eq_of_get? _ _ ordered' ordered fun c => ?_
  change q.class? c = p.class? c
  have same := unlinked c
  cases live : p.class? c with
  | none => simpa [live] using same
  | some d =>
      rw [live] at same
      obtain ⟨e, found, alike⟩ := Option.map_eq_some_iff.mp same
      rw [found]
      refine congrArg some (Class.eq_of_unlinked e d alike fun k => ?_)
      refine OrderedSet.eq_of_mem_iff _ _ (sorted' c e found k) (sorted c d live k) fun child => ?_
      simpa [Lists, live, found] using lists k c child

end Program

end JvmEdit
