import JvmEdit.Program.Hierarchy
import JvmEdit.Proofs.Data.OrderedSet
import JvmEdit.Proofs.Hierarchy.Links
import JvmEdit.Proofs.Index.ClassRename
set_option autoImplicit false

namespace JvmEdit

-- The two ways in which a class names its parents and is listed by them.
inductive Parentage
  | superclass
  | interface
  deriving DecidableEq, Repr

namespace Parentage

def names : Parentage → Class → List String
  | superclass, c => c.superName.toList
  | interface, c => c.interfaces

def children : Parentage → Class → OrderedSet ClassId
  | superclass, c => c.subclasses
  | interface, c => c.implementers

def change (f : OrderedSet ClassId → OrderedSet ClassId) : Parentage → Class → Class
  | superclass, c => { c with subclasses := f c.subclasses }
  | interface, c => { c with implementers := f c.implementers }

theorem children_change (k k' : Parentage) (f : OrderedSet ClassId → OrderedSet ClassId) (c : Class) :
    k.children (k'.change f c) = if k' = k then f (k.children c) else k.children c := by
  cases k <;> cases k' <;> rfl

end Parentage

-- A class without its links.
def Class.unlinked (c : Class) : Class := { c with subclasses := .empty, implementers := .empty }

theorem Parentage.names_unlinked (k : Parentage) (c : Class) : k.names c.unlinked = k.names c := by
  cases k <;> rfl

theorem Parentage.unlinked_change (k : Parentage) (f : OrderedSet ClassId → OrderedSet ClassId)
    (c : Class) : (k.change f c).unlinked = c.unlinked := by
  cases k <;> rfl

namespace Program

-- Classes are listed by exactly those they name: the names are those of now.
structure Linked (p : Program) : Prop where
  subclasses : ∀ id c, p.class? id = some c → ∀ child,
    child ∈ c.subclasses ↔ ∃ d, p.class? child = some d ∧ d.superName = some c.name
  implementers : ∀ id c, p.class? id = some c → ∀ child,
    child ∈ c.implementers ↔ ∃ d, p.class? child = some d ∧ c.name ∈ d.interfaces

-- A name finds the one class that bears it.
structure ClassesIndexed (p : Program) : Prop where
  names : p.index.classes.InverseOf p.className?
  order : p.classes.Ordered
  fresh : ∀ id, (p.className? id).isSome → id.val < p.nextId

def Lists (p : Program) (k : Parentage) (parent child : ClassId) : Prop :=
  ∃ c, p.class? parent = some c ∧ child ∈ k.children c

-- The names under which a class gives its parents; none for a class that is not loaded.
def givenParents (p : Program) (k : Parentage) (child : ClassId) : List String :=
  ((p.class? child).map k.names).getD []

-- The loaded parents of a class, as often as it names them.
def parents (p : Program) (k : Parentage) (child : ClassId) : List ClassId :=
  (p.givenParents k child).filterMap p.findClass?

def changeLinks (p : Program) (k : Parentage) (f : OrderedSet ClassId → OrderedSet ClassId)
    (parents : List ClassId) : Program :=
  parents.foldl (fun q parent => q.updateClass parent (k.change f)) p

theorem mem_parents (p : Program) (k : Parentage) (parent child : ClassId) :
    parent ∈ p.parents k child ↔ ∃ name ∈ p.givenParents k child, p.findClass? name = some parent :=
  List.mem_filterMap

theorem mem_given_parents (p : Program) (k : Parentage) (child : ClassId) (name : String) :
    name ∈ p.givenParents k child ↔ ∃ d, p.class? child = some d ∧ name ∈ k.names d := by
  unfold givenParents
  cases p.class? child <;> simp

-- The programs differ in the links of their classes only.
structure SameParents (p q : Program) : Prop where
  index : q.index = p.index
  nextId : q.nextId = p.nextId
  classIds : q.classIds = p.classIds
  classes : ∀ id, (q.class? id).map Class.unlinked = (p.class? id).map Class.unlinked

namespace SameParents

theorem refl (p : Program) : SameParents p p := ⟨rfl, rfl, rfl, fun _ => rfl⟩

theorem trans {p q r : Program} (first : SameParents p q) (second : SameParents q r) :
    SameParents p r :=
  ⟨second.index.trans first.index, second.nextId.trans first.nextId,
    second.classIds.trans first.classIds, fun id => (second.classes id).trans (first.classes id)⟩

theorem foldl {α : Type} (f : Program → α → Program) (keeps : ∀ p x, SameParents p (f p x))
    (xs : List α) (p : Program) : SameParents p (xs.foldl f p) := by
  induction xs generalizing p with
  | nil => exact refl p
  | cons x xs ih => exact (keeps p x).trans (ih (f p x))

variable {p q : Program} (same : SameParents p q)

include same

theorem find_class : q.findClass? = p.findClass? := by
  funext name
  rw [findClass?, same.index, findClass?]

theorem is_some (id : ClassId) : (q.class? id).isSome = (p.class? id).isSome := by
  have classes := congrArg Option.isSome (same.classes id)
  rwa [Option.isSome_map, Option.isSome_map] at classes

theorem class_name (id : ClassId) : q.className? id = p.className? id := by
  have names := congrArg (Option.map Class.name) (same.classes id)
  rwa [Option.map_map, Option.map_map] at names

theorem given_parents (k : Parentage) (child : ClassId) :
    q.givenParents k child = p.givenParents k child := by
  have names := congrArg (Option.map k.names) (same.classes child)
  have kept : k.names ∘ Class.unlinked = k.names := funext k.names_unlinked
  rw [Option.map_map, Option.map_map, kept] at names
  rw [Program.givenParents, names, Program.givenParents]

theorem parents (k : Parentage) (child : ClassId) : q.parents k child = p.parents k child := by
  rw [Program.parents, same.given_parents, same.find_class, Program.parents]

end SameParents

theorem same_parents_update_class (p : Program) (id : ClassId) (f : Class → Class)
    (keeps : ∀ c, (f c).unlinked = c.unlinked) : SameParents p (p.updateClass id f) := by
  refine ⟨rfl, rfl, Table.keys_modify _ _ _, ?_⟩
  intro other
  rw [class?_update_class]
  by_cases same : id = other
  · simp [same, Function.comp_def, keeps]
  · simp [same]

theorem same_parents_change_links (p : Program) (k : Parentage)
    (f : OrderedSet ClassId → OrderedSet ClassId) (parents : List ClassId) :
    SameParents p (p.changeLinks k f parents) :=
  .foldl _ (fun q parent => same_parents_update_class q parent _ (k.unlinked_change f)) parents p

section Lists

variable (p : Program) (k : Parentage) (parent child : ClassId)

theorem lists_update_class (other : ClassId) (f : Class → Class) :
    (p.updateClass other f).Lists k parent child ↔
      if other = parent then ∃ c, p.class? parent = some c ∧ child ∈ k.children (f c)
      else p.Lists k parent child := by
  unfold Lists
  rw [class?_update_class]
  by_cases same : other = parent
  · simp [same]
  · simp [same]

theorem lists_change (k' : Parentage) (f : OrderedSet ClassId → OrderedSet ClassId)
    (other : ClassId) : (p.updateClass other (k'.change f)).Lists k parent child ↔
      if other = parent ∧ k' = k then ∃ c, p.class? parent = some c ∧ child ∈ f (k.children c)
      else p.Lists k parent child := by
  rw [lists_update_class]
  simp only [Parentage.children_change]
  by_cases same : other = parent
  · by_cases sameKind : k' = k
    · simp [same, sameKind]
    · simp [same, sameKind, Lists]
  · simp [same]

theorem lists_insert (k' : Parentage) (id : ClassId) (parents : List ClassId) :
    (p.changeLinks k' (·.insert id) parents).Lists k parent child ↔ p.Lists k parent child ∨
      k' = k ∧ child = id ∧ parent ∈ parents ∧ (p.class? parent).isSome := by
  induction parents generalizing p with
  | nil => simp [changeLinks]
  | cons first rest ih =>
      have kept := same_parents_update_class p first _ (k'.unlinked_change (·.insert id))
      have later := ih (p.updateClass first (k'.change (·.insert id)))
      rw [kept.is_some] at later
      refine later.trans ?_
      rw [lists_change]
      by_cases hit : first = parent ∧ k' = k
      · obtain ⟨rfl, rfl⟩ := hit
        rw [if_pos ⟨rfl, rfl⟩]
        simp only [Lists, OrderedSet.mem_insert, Option.isSome_iff_exists, List.mem_cons]
        grind
      · rw [if_neg hit, List.mem_cons]
        grind

theorem lists_erase (k' : Parentage) (id : ClassId) (parents : List ClassId) :
    (p.changeLinks k' (·.erase id) parents).Lists k parent child ↔ p.Lists k parent child ∧
      ¬(k' = k ∧ child = id ∧ parent ∈ parents) := by
  induction parents generalizing p with
  | nil => simp [changeLinks]
  | cons first rest ih =>
      refine (ih (p.updateClass first (k'.change (·.erase id)))).trans ?_
      rw [lists_change]
      by_cases hit : first = parent ∧ k' = k
      · obtain ⟨rfl, rfl⟩ := hit
        rw [if_pos ⟨rfl, rfl⟩]
        simp only [Lists, OrderedSet.mem_erase, List.mem_cons]
        grind
      · rw [if_neg hit, List.mem_cons]
        grind

end Lists

theorem foldl_interfaces (p : Program) (g : OrderedSet ClassId → OrderedSet ClassId)
    (step : Program → String → Program) (isStep : ∀ q name, step q name =
      (q.findClass? name).elim q (q.updateClass · (Parentage.interface.change g)))
    (names : List String) (q : Program) (same : SameParents p q) :
    names.foldl step q = q.changeLinks .interface g (names.filterMap p.findClass?) := by
  induction names generalizing q with
  | nil => rfl
  | cons name names ih =>
      rw [List.foldl_cons, List.filterMap_cons, isStep, same.find_class]
      cases p.findClass? name with
      | none => exact ih q same
      | some parent =>
          exact ih _ (same.trans (same_parents_update_class q parent _ (Parentage.unlinked_change _ g)))

theorem update_parents_eq (p : Program) (id : ClassId) (f g : OrderedSet ClassId → OrderedSet ClassId) :
    p.updateParents id (Parentage.superclass.change f) (Parentage.interface.change g) =
      (p.changeLinks .superclass f (p.parents .superclass id)).changeLinks .interface g
        (p.parents .interface id) := by
  unfold updateParents
  cases found : p.class? id with
  | none => simp [parents, givenParents, found, changeLinks]
  | some c =>
      have classNames : p.parents .interface id = c.interfaces.filterMap p.findClass? := by
        rw [parents, givenParents, found]
        rfl
      have superName : p.parents .superclass id = c.superName.toList.filterMap p.findClass? := by
        rw [parents, givenParents, found]
        rfl
      dsimp only
      rw [classNames, superName]
      refine (foldl_interfaces p g _ (fun q name => ?_) c.interfaces _ ?_).trans ?_
      · cases q.findClass? name <;> rfl
      · split
        · exact same_parents_update_class p _ _ (Parentage.unlinked_change _ f)
        · exact .refl p
      · congr 1
        cases c.superName with
        | none => rfl
        | some name =>
            simp only [Option.bind_some, Option.toList_some, List.filterMap_cons, List.filterMap_nil]
            cases p.findClass? name <;> rfl

theorem link_class_eq (p : Program) (id : ClassId) : p.linkClass id =
    (p.changeLinks .superclass (·.insert id) (p.parents .superclass id)).changeLinks .interface
      (·.insert id) (p.parents .interface id) :=
  update_parents_eq p id (·.insert id) (·.insert id)

theorem unlink_class_eq (p : Program) (id : ClassId) : p.unlinkClass id =
    (p.changeLinks .superclass (·.erase id) (p.parents .superclass id)).changeLinks .interface
      (·.erase id) (p.parents .interface id) :=
  update_parents_eq p id (·.erase id) (·.erase id)

theorem same_parents_link_class (p : Program) (id : ClassId) : SameParents p (p.linkClass id) := by
  rw [link_class_eq]
  exact (same_parents_change_links p _ _ _).trans (same_parents_change_links _ _ _ _)

theorem same_parents_unlink_class (p : Program) (id : ClassId) : SameParents p (p.unlinkClass id) := by
  rw [unlink_class_eq]
  exact (same_parents_change_links p _ _ _).trans (same_parents_change_links _ _ _ _)

theorem lists_link_class (p : Program) (id : ClassId) (k : Parentage) (parent child : ClassId) :
    (p.linkClass id).Lists k parent child ↔ p.Lists k parent child ∨
      child = id ∧ parent ∈ p.parents k id ∧ (p.class? parent).isSome := by
  rw [link_class_eq, lists_insert, lists_insert,
    (same_parents_change_links p .superclass (·.insert id) _).is_some]
  cases k <;> simp

theorem lists_unlink_class (p : Program) (id : ClassId) (k : Parentage) (parent child : ClassId) :
    (p.unlinkClass id).Lists k parent child ↔
      p.Lists k parent child ∧ ¬(child = id ∧ parent ∈ p.parents k id) := by
  rw [unlink_class_eq, lists_erase, lists_erase]
  cases k <;> simp

-- Links that are exact, in terms of identities.
def Matched (p : Program) : Prop := ∀ k parent child, p.Lists k parent child ↔ parent ∈ p.parents k child

section Indexed

variable (p : Program) (indexed : p.ClassesIndexed)

include indexed

theorem ClassesIndexed.find_class_iff (name : String) (id : ClassId) :
    p.findClass? name = some id ↔ ∃ c, p.class? id = some c ∧ c.name = name := by
  refine (indexed.names name id).trans ?_
  rw [className?, Option.map_eq_some_iff]

theorem parent_live (k : Parentage) (parent child : ClassId) (member : parent ∈ p.parents k child) :
    (p.class? parent).isSome := by
  obtain ⟨name, _, found⟩ := (mem_parents p k parent child).mp member
  obtain ⟨c, live, _⟩ := (indexed.find_class_iff p name parent).mp found
  rw [live]
  rfl

theorem mem_parents_iff (k : Parentage) (parent child : ClassId) (c : Class)
    (live : p.class? parent = some c) :
    parent ∈ p.parents k child ↔ ∃ d, p.class? child = some d ∧ c.name ∈ k.names d := by
  rw [← mem_given_parents, mem_parents]
  constructor
  · rintro ⟨name, member, found⟩
    obtain ⟨c', live', isName⟩ := (indexed.find_class_iff p name parent).mp found
    rw [live] at live'
    cases live'
    exact isName ▸ member
  · intro member
    exact ⟨c.name, member, (indexed.find_class_iff p c.name parent).mpr ⟨c, live, rfl⟩⟩

theorem linked_iff : p.Linked ↔ p.Matched := by
  have extends_iff : ∀ (d : Class) (name : String),
      name ∈ Parentage.superclass.names d ↔ d.superName = some name := fun d name => Option.mem_toList
  constructor
  · intro linked k parent child
    cases live : p.class? parent with
    | none =>
        refine iff_of_false (fun ⟨c, found, _⟩ => ?_) (fun member => ?_)
        · rw [live] at found
          cases found
        · have alive := parent_live p indexed k parent child member
          rw [live] at alive
          cases alive
    | some c =>
        rw [mem_parents_iff p indexed k parent child c live]
        have listed : p.Lists k parent child ↔ child ∈ k.children c := by simp [Lists, live]
        refine listed.trans ?_
        cases k with
        | superclass =>
            simp only [extends_iff]
            exact linked.subclasses parent c live child
        | interface => exact linked.implementers parent c live child
  · intro matched
    refine ⟨fun id c live child => ?_, fun id c live child => ?_⟩
    · have listed : p.Lists .superclass id child ↔ child ∈ c.subclasses := by
        simp [Lists, live, Parentage.children]
      rw [← listed, matched, mem_parents_iff p indexed .superclass id child c live]
      simp only [extends_iff]
    · have listed : p.Lists .interface id child ↔ child ∈ c.implementers := by
        simp [Lists, live, Parentage.children]
      rw [← listed, matched, mem_parents_iff p indexed .interface id child c live]
      rfl

theorem superclass?_iff (linked : p.Linked) (child parent : ClassId) :
    p.superclass? child = some parent ↔ ∃ c, p.class? parent = some c ∧ child ∈ c.subclasses := by
  have named : p.superclass? child = some parent ↔ parent ∈ p.parents .superclass child := by
    rw [mem_parents, superclass?, Option.bind_eq_some_iff]
    unfold givenParents
    cases p.class? child <;> simp [Parentage.names]
  rw [named, ← (linked_iff p indexed).mp linked]
  rfl

end Indexed

theorem classes_indexed_same_parents (p q : Program) (same : SameParents p q)
    (indexed : p.ClassesIndexed) : q.ClassesIndexed where
  names := by
    rw [same.index, show q.className? = p.className? from funext same.class_name]
    exact indexed.names
  order := (congrArg (List.Pairwise (· < ·)) same.classIds).mpr indexed.order
  fresh := fun id live => by
    rw [same.nextId]
    exact indexed.fresh id (same.class_name id ▸ live)

end Program

end JvmEdit
