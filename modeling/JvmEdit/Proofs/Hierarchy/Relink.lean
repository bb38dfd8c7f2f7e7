import JvmEdit.Proofs.Descriptor.Rename
import JvmEdit.Proofs.Hierarchy.Linked
set_option autoImplicit false

namespace JvmEdit

-- A class name that neither is empty nor holds a character with a meaning of its own in class files.
def LegalClassName (name : String) : Prop :=
  name ≠ "" ∧ ∀ c ∈ name.toList, c ≠ '.' ∧ c ≠ ';' ∧ c ≠ '[' ∧ c ≠ '<'

instance LegalClassName.decidable (name : String) : Decidable (LegalClassName name) :=
  @instDecidableAnd _ _ inferInstance (List.decidableBAll _ name.toList)

theorem LegalClassName.no_bracket {name : String} (legal : LegalClassName name) :
    name.toList.head? ≠ some '[' := by
  intro bracket
  exact (legal.2 '[' (List.mem_of_mem_head? bracket)).2.2.1 rfl

namespace Program

def ClassNamesLegal (p : Program) : Prop := ∀ id name, p.className? id = some name → LegalClassName name

section LinkHierarchy

variable (p : Program)

theorem lists_link_classes (todo : List ClassId) (k : Parentage) (parent child : ClassId) :
    (todo.foldl linkClass p).Lists k parent child ↔ p.Lists k parent child ∨
      child ∈ todo ∧ parent ∈ p.parents k child ∧ (p.class? parent).isSome := by
  induction todo generalizing p with
  | nil => simp
  | cons id todo ih =>
      have kept := same_parents_link_class p id
      have later := ih (p.linkClass id)
      rw [kept.parents, kept.is_some, lists_link_class] at later
      refine later.trans ?_
      rw [List.mem_cons]
      constructor
      · rintro ((old | ⟨rfl, isParent, live⟩) | ⟨member, isParent, live⟩)
        · exact Or.inl old
        · exact Or.inr ⟨Or.inl rfl, isParent, live⟩
        · exact Or.inr ⟨Or.inr member, isParent, live⟩
      · rintro (old | ⟨rfl | member, isParent, live⟩)
        · exact Or.inl (Or.inl old)
        · exact Or.inl (Or.inr ⟨rfl, isParent, live⟩)
        · exact Or.inr ⟨member, isParent, live⟩

-- All classes without their links.
def unlinked : Program := { p with classes := p.classes.mapValues Class.unlinked }

theorem unlinked_eq (unique : p.classIds.Nodup) :
    p.classIds.foldl (fun q id => q.updateClass id Class.unlinked) p = p.unlinked := by
  rw [foldl_update_class]
  exact congrArg (fun classes => { p with classes }) (Table.foldl_modify_keys p.classes _ unique)

theorem class?_unlinked (id : ClassId) : p.unlinked.class? id = (p.class? id).map Class.unlinked :=
  Table.get?_map_values p.classes Class.unlinked id

theorem same_parents_unlinked : SameParents p p.unlinked := by
  refine ⟨rfl, rfl, Table.keys_map_values _ _, ?_⟩
  intro id
  rw [class?_unlinked, Option.map_map]
  rfl

theorem not_lists_unlinked (k : Parentage) (parent child : ClassId) :
    ¬p.unlinked.Lists k parent child := by
  rintro ⟨c, found, listed⟩
  rw [class?_unlinked] at found
  obtain ⟨d, _, rfl⟩ := Option.map_eq_some_iff.mp found
  cases k <;> exact OrderedSet.not_mem_empty child listed

theorem link_hierarchy_eq (unique : p.classIds.Nodup) :
    p.linkHierarchy = p.classIds.foldl linkClass p.unlinked := by
  rw [linkHierarchy, ← unlinked_eq p unique]
  rfl

theorem same_parents_link_hierarchy (unique : p.classIds.Nodup) : SameParents p p.linkHierarchy := by
  rw [link_hierarchy_eq p unique]
  exact (same_parents_unlinked p).trans (.foldl _ same_parents_link_class _ _)

theorem matched_link_hierarchy (indexed : p.ClassesIndexed) : p.linkHierarchy.Matched := by
  have unique := Table.keys_nodup _ indexed.order
  intro k parent child
  rw [(same_parents_link_hierarchy p unique).parents, link_hierarchy_eq p unique, lists_link_classes,
    (same_parents_unlinked p).parents, (same_parents_unlinked p).is_some]
  constructor
  · rintro (listed | ⟨_, isParent, _⟩)
    · exact absurd listed (not_lists_unlinked p k parent child)
    · exact isParent
  · intro isParent
    obtain ⟨name, member, _⟩ := (mem_parents p k parent child).mp isParent
    obtain ⟨d, found, _⟩ := (mem_given_parents p k child name).mp member
    exact Or.inr ⟨(Table.mem_keys_iff _ _).mpr ⟨d, found⟩, isParent,
      parent_live p indexed k parent child isParent⟩

end LinkHierarchy

section Relink

variable (p : Program)

theorem mem_classes_where (test : Class → Bool) (id : ClassId) :
    id ∈ p.classesWhere test ↔ ∃ c, p.class? id = some c ∧ test c = true := by
  rw [classesWhere, List.mem_filter, classIds, Table.mem_keys_iff]
  constructor
  · rintro ⟨⟨c, found⟩, passes⟩
    have live : p.class? id = some c := found
    rw [live] at passes
    exact ⟨c, live, by simpa using passes⟩
  · rintro ⟨c, found, passes⟩
    exact ⟨⟨c, found⟩, by simp [found, passes]⟩

theorem mem_classes_naming (name : String) (id : ClassId) :
    (id ∈ p.classesWhere (·.extends? name) ↔ name ∈ p.givenParents .superclass id) ∧
      (id ∈ p.classesWhere (·.implements name) ↔ name ∈ p.givenParents .interface id) := by
  constructor
  · rw [mem_classes_where, mem_given_parents]
    simp [Class.extends?, Parentage.names]
  · rw [mem_classes_where, mem_given_parents]
    simp [Class.implements, Parentage.names]

theorem relink_class_eq (id : ClassId) (name : String) (live : p.className? id = some name) :
    p.relinkClass id = (p.linkClass id).updateClass id fun c => { c with
      subclasses := .ofList ((p.linkClass id).classesWhere (·.extends? name))
      implementers := .ofList ((p.linkClass id).classesWhere (·.implements name)) } := by
  have named := (same_parents_link_class p id).class_name id
  simp only [relinkClass]
  rw [named, live]

theorem same_parents_relink_class (id : ClassId) : SameParents p (p.relinkClass id) := by
  refine (same_parents_link_class p id).trans ?_
  simp only [relinkClass]
  split
  · exact .refl _
  · exact same_parents_update_class _ id _ fun _ => rfl

theorem lists_relink_class (id : ClassId) (name : String) (live : p.className? id = some name)
    (k : Parentage) (parent child : ClassId) : (p.relinkClass id).Lists k parent child ↔
      if parent = id then name ∈ p.givenParents k child
      else p.Lists k parent child ∨
        child = id ∧ parent ∈ p.parents k id ∧ (p.class? parent).isSome := by
  have linked := same_parents_link_class p id
  rw [relink_class_eq p id name live, lists_update_class, lists_link_class]
  by_cases isId : id = parent
  · subst isId
    have alive : ((p.linkClass id).class? id).isSome := by
      rw [linked.is_some, ← Option.isSome_map]
      exact Option.isSome_iff_exists.mpr ⟨name, live⟩
    obtain ⟨c, found⟩ := Option.isSome_iff_exists.mp alive
    rw [if_pos rfl, if_pos rfl, found]
    have naming := mem_classes_naming (p.linkClass id) name child
    cases k with
    | superclass => simpa [Parentage.children, OrderedSet.mem_of_list, linked.given_parents] using naming.1
    | interface => simpa [Parentage.children, OrderedSet.mem_of_list, linked.given_parents] using naming.2
  · rw [if_neg isId, if_neg (Ne.symm isId)]

end Relink

section Rename

variable (p q : Program)

theorem lists_congr (k : Parentage) (parent child : ClassId)
    (same : (q.class? parent).map k.children = (p.class? parent).map k.children) :
    q.Lists k parent child ↔ p.Lists k parent child := by
  have listed : ∀ r : Program, r.Lists k parent child ↔
      ∃ set, (r.class? parent).map k.children = some set ∧ child ∈ set := by
    intro r
    simp [Lists]
  rw [listed, listed, same]

theorem lists_same_links (same : SameLinks p q) (k : Parentage) (parent child : ClassId) :
    q.Lists k parent child ↔ p.Lists k parent child := by
  apply lists_congr
  cases k with
  | superclass => exact same.reads ClassLinks.subclasses parent
  | interface => exact same.reads ClassLinks.implementers parent

theorem given_parents_same_links (same : SameLinks p q) (k : Parentage) (child : ClassId) :
    q.givenParents k child = p.givenParents k child := by
  have names : (q.class? child).map k.names = (p.class? child).map k.names := by
    cases k with
    | superclass => exact same.reads (fun l => l.superName.toList) child
    | interface => exact same.reads ClassLinks.interfaces child
  rw [givenParents, names, givenParents]

theorem parents_same_links (same : SameLinks p q) (k : Parentage) (child : ClassId) :
    q.parents k child = p.parents k child := by
  rw [parents, given_parents_same_links p q same, show q.findClass? = p.findClass? from
    funext same.find_class, parents]

theorem classes_indexed_same_links (same : SameLinks p q) (indexed : p.ClassesIndexed) :
    q.ClassesIndexed where
  names := by
    rw [same.index, show q.className? = p.className? from funext same.class_name]
    exact indexed.names
  order := (congrArg (List.Pairwise (· < ·)) same.classIds).mpr indexed.order
  fresh := fun id live =>
    Nat.lt_of_lt_of_le (indexed.fresh id (same.class_name id ▸ live)) same.counter

theorem matched_same_links (same : SameLinks p q) (matched : p.Matched) : q.Matched := by
  intro k parent child
  rw [lists_same_links p q same, parents_same_links p q same]
  exact matched k parent child

theorem same_links_carry_field (r : Renaming) (id : ClassId) (field : FieldId) :
    SameLinks p (carryField r id p field) := by
  have rewritten := same_links_update_field p field r.fieldText
  simp only [carryField]
  split
  · split
    · exact rewritten.trans (same_links_members _ _ rfl (Nat.le_refl _) rfl)
    · exact rewritten
  · exact rewritten

theorem same_links_carry_method (r : Renaming) (id : ClassId) (method : MethodId) :
    SameLinks p (carryMethod r id p method) := by
  have rewritten := same_links_update_method p method r.methodText
  unfold carryMethod
  dsimp only
  split
  · split
    · exact rewritten
    · generalize Key.method (if _ = id then _ else _) _ _ = oldKey
      split
      · exact rewritten
      · exact rewritten.trans (same_links_members _ _ rfl (Nat.le_refl _) rfl)
  · exact rewritten

theorem same_links_carry_members (id : ClassId) (r : Renaming) : SameLinks p (p.carryMembers id r) :=
  (SameLinks.foldl _ (fun q field => same_links_carry_field q r id field) p.fieldIds p).trans
    (.foldl _ (fun q m => same_links_carry_method q r id m) _ _)

theorem rename_class_headed (id : ClassId) (new : String) (unique : p.classIds.Nodup)
    (done : p.renameClass id new = .ok q) :
    ∃ old, p.className? id = some old ∧ (old = new ∧ q = p ∨ p.findClass? new = none ∧
      ∃ m, SameLinks (p.headed id ⟨old, new⟩) m ∧ q = m.relinkClass id) := by
  obtain ⟨old, live, same | ⟨_, free, _, rfl⟩⟩ := rename_class_cases p id q new done
  · exact ⟨old, live, .inl same⟩
  · refine ⟨old, live, .inr ⟨free, _, ?_, rfl⟩⟩
    rw [headed_steps p id ⟨old, new⟩ unique]
    exact same_links_carry_members _ id ⟨old, new⟩

end Rename

section Headed

variable (p : Program) (id : ClassId) (r : Renaming)

theorem class?_headed (c : ClassId) : (p.headed id r).class? c =
    if id = c then ((p.unlinkClass id).class? c).map fun c => r.classHeader { c with name := r.new }
    else ((p.unlinkClass id).class? c).map r.classHeader := by
  have stored : (p.headed id r).class? c =
      (((p.unlinkClass id).updateClass id fun c => { c with name := r.new }).class? c).map
        r.classHeader := Table.get?_map_values _ _ _
  rw [stored, class?_update_class]
  by_cases same : id = c
  · rw [if_pos same, if_pos same, Option.map_map]
    rfl
  · rw [if_neg same, if_neg same]

theorem lists_headed (k : Parentage) (parent child : ClassId) :
    (p.headed id r).Lists k parent child ↔ (p.unlinkClass id).Lists k parent child := by
  apply lists_congr
  rw [class?_headed]
  split <;> cases k <;> rw [Option.map_map] <;> rfl

theorem given_parents_headed (k : Parentage) (child : ClassId) :
    (p.headed id r).givenParents k child = (p.givenParents k child).map r.internal := by
  have header : ∀ c : Class, k.names (r.classHeader c) = (k.names c).map r.internal := by
    intro c
    cases k with
    | superclass => cases superName : c.superName <;> simp [Parentage.names, Renaming.classHeader, superName]
    | interface => rfl
  have named : ∀ c : Class, k.names { c with name := r.new } = k.names c := by
    intro c
    cases k <;> rfl
  rw [← (same_parents_unlink_class p id).given_parents, givenParents, givenParents, class?_headed]
  cases (p.unlinkClass id).class? child with
  | none => split <;> rfl
  | some c => split <;> simp [header, named]

theorem class_name?_headed (live : p.className? id = some r.old) (c : ClassId) :
    (p.headed id r).className? c = p.nameAfter id r.new c := class_name?_renamed p id r live c

theorem classes_indexed_headed (indexed : p.ClassesIndexed) (live : p.className? id = some r.old)
    (free : p.findClass? r.new = none) : (p.headed id r).ClassesIndexed where
  names := class_names_renamed p id r indexed.names live free
  order := by
    have keys : (p.headed id r).classIds = p.classIds :=
      (Table.keys_map_values _ _).trans ((Table.keys_modify _ _ _).trans
        (same_parents_unlink_class p id).classIds)
    exact (congrArg (List.Pairwise (· < ·)) keys).mpr indexed.order
  fresh := by
    intro c alive
    have counter : (p.headed id r).nextId = p.nextId := (same_parents_unlink_class p id).nextId
    rw [class_name?_headed p id r live, nameAfter] at alive
    rw [counter]
    apply indexed.fresh c
    split at alive
    · rename_i isId
      rw [isId, live]
      rfl
    · exact alive

theorem find_class?_headed (indexed : p.ClassesIndexed) (live : p.className? id = some r.old)
    (free : p.findClass? r.new = none) (legal : p.ClassNamesLegal) (parent : ClassId)
    (other : parent ≠ id) (text : String) :
    (p.headed id r).findClass? (r.internal text) = some parent ↔ p.findClass? text = some parent := by
  have after := (classes_indexed_headed p id r indexed live free).names (r.internal text) parent
  have before := indexed.names text parent
  rw [class_name?_headed p id r live, nameAfter, if_neg other] at after
  refine after.trans (Iff.trans ?_ before.symm)
  have unheld : p.className? parent ≠ some r.new := fun held => by
    rw [findClass?, (indexed.names r.new parent).mpr held] at free
    cases free
  have old : r.internal r.old = r.new := by simp [Renaming.internal, ClassName.rename?]
  by_cases isOld : text = r.old
  · subst isOld
    rw [old]
    refine iff_of_false unheld fun held => ?_
    exact other (Table.inverse_unique _ _ indexed.names r.old parent id held live)
  · by_cases bracket : text.toList.head? = some '['
    · have bracketed := r.internal_bracket text isOld bracket
      refine iff_of_false (fun held => ?_) fun held => ?_
      · exact (legal parent _ held).no_bracket bracketed
      · exact (legal parent _ held).no_bracket bracket
    · rw [r.internal_plain text bracket, Renaming.name, if_neg isOld]

theorem mem_parents_headed (indexed : p.ClassesIndexed) (live : p.className? id = some r.old)
    (free : p.findClass? r.new = none) (legal : p.ClassNamesLegal) (k : Parentage)
    (parent child : ClassId) (other : parent ≠ id) :
    parent ∈ (p.headed id r).parents k child ↔ parent ∈ p.parents k child := by
  rw [mem_parents, mem_parents, given_parents_headed]
  simp only [List.mem_map, exists_exists_and_eq_and,
    find_class?_headed p id r indexed live free legal parent other]

theorem matched_relink_class (m : Program) (indexed : p.ClassesIndexed) (legal : p.ClassNamesLegal)
    (matched : p.Matched) (live : p.className? id = some r.old) (free : p.findClass? r.new = none)
    (same : SameLinks (p.headed id r) m) : (m.relinkClass id).Matched := by
  have headed := classes_indexed_headed p id r indexed live free
  have indexedNow := classes_indexed_same_links _ m same headed
  have named : m.className? id = some r.new := by
    rw [same.class_name, class_name?_headed p id r live, nameAfter, if_pos rfl]
  intro k parent child
  rw [lists_relink_class m id r.new named, (same_parents_relink_class m id).parents]
  by_cases isId : parent = id
  · subst isId
    obtain ⟨c, found, isName⟩ := Option.map_eq_some_iff.mp named
    rw [if_pos rfl, mem_parents_iff m indexedNow k parent child c found, isName, mem_given_parents]
  · have listed : m.Lists k parent child ↔
        parent ∈ p.parents k child ∧ ¬(child = id ∧ parent ∈ p.parents k id) := by
      rw [lists_same_links _ m same, lists_headed, lists_unlink_class, matched]
    have parents : ∀ other, parent ∈ m.parents k other ↔ parent ∈ p.parents k other := by
      intro other
      rw [parents_same_links _ m same, mem_parents_headed p id r indexed live free legal k parent other isId]
    rw [if_neg isId, listed, parents, parents]
    constructor
    · rintro (⟨isParent, _⟩ | ⟨rfl, isParent, _⟩)
      · exact isParent
      · exact isParent
    · intro isParent
      by_cases isChild : child = id
      · subst isChild
        exact Or.inr ⟨rfl, isParent, parent_live m indexedNow k parent child ((parents child).mpr isParent)⟩
      · exact Or.inl ⟨isParent, fun both => isChild both.1⟩

end Headed

end Program

end JvmEdit
