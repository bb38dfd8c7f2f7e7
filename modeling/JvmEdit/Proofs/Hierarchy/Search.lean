import JvmEdit.Libraries.Standard
import JvmEdit.Pass.Override
import JvmEdit.Proofs.Hierarchy.Session
import Mathlib.Logic.Relation
set_option autoImplicit false

namespace JvmEdit

namespace Program

section Search

variable (next : ClassId → List ClassId)

def Leads (c d : ClassId) : Prop := d ∈ next c

theorem mem_discover (ids : List ClassId) (found : OrderedSet ClassId) (waiting : List ClassId)
    (c : ClassId) : c ∈ (discover found waiting ids).1 ↔ c ∈ found ∨ c ∈ ids := by
  induction ids generalizing found waiting with
  | nil => simp [discover]
  | cons id ids ih =>
      rw [discover]
      split
      · rename_i known
        have member : id ∈ found := of_decide_eq_true known
        rw [ih, List.mem_cons]
        constructor
        · intro among
          exact among.imp_right .inr
        · intro among
          rcases among with old | rfl | later
          · exact .inl old
          · exact .inl member
          · exact .inr later
      · rw [ih, OrderedSet.mem_insert, List.mem_cons, or_comm (a := c = id), or_assoc]

theorem mem_discover_waiting (ids : List ClassId) (found : OrderedSet ClassId) (waiting : List ClassId)
    (c : ClassId) : c ∈ (discover found waiting ids).2 ↔ c ∈ waiting ∨ (c ∈ ids ∧ c ∉ found) := by
  induction ids generalizing found waiting with
  | nil => simp [discover]
  | cons id ids ih =>
      rw [discover]
      split
      · rename_i known
        have member : id ∈ found := of_decide_eq_true known
        rw [ih, List.mem_cons]
        grind
      · rename_i unknown
        have absent : id ∉ found := fun member => unknown (decide_eq_true member)
        rw [ih, OrderedSet.mem_insert, List.mem_cons, List.mem_cons]
        grind

-- How many classes are yet to be found.
def missing (classes : List ClassId) (found : OrderedSet ClassId) : Nat :=
  (classes.filter fun c => !found.contains c).length

theorem missing_insert (classes : List ClassId) (found : OrderedSet ClassId) (id : ClassId)
    (inside : id ∈ classes) (absent : id ∉ found) :
    missing classes (found.insert id) < missing classes found := by
  have shorter : classes.filter (fun c => !(found.insert id).contains c) =
      (classes.filter fun c => !found.contains c).filter (· ≠ id) := by
    rw [List.filter_filter]
    apply List.filter_congr
    intro c _
    simp [OrderedSet.contains, OrderedSet.mem_insert]
  rw [missing, shorter, missing, List.length_filter_lt_length_iff_exists]
  refine ⟨id, List.mem_filter.mpr ⟨inside, ?_⟩, ?_⟩
  · simp [OrderedSet.contains, absent]
  · simp

theorem discover_remaining (classes ids : List ClassId) (found : OrderedSet ClassId)
    (waiting : List ClassId) (inside : ∀ c ∈ ids, c ∈ classes) :
    (discover found waiting ids).2.length + missing classes (discover found waiting ids).1 ≤
      waiting.length + missing classes found := by
  induction ids generalizing found waiting with
  | nil => exact Nat.le_refl _
  | cons id ids ih =>
      rw [discover]
      have rest : ∀ c ∈ ids, c ∈ classes := fun c member => inside c (List.mem_cons_of_mem _ member)
      split
      · exact ih found waiting rest
      · rename_i unknown
        have absent : id ∉ found := fun member => unknown (decide_eq_true member)
        have fewer := missing_insert classes found id (inside id List.mem_cons_self) absent
        have later := ih (found.insert id) (id :: waiting) rest
        rw [List.length_cons] at later
        omega

-- A search under way: what waits is still to be visited, and what has been visited is closed.
structure Exploring (start : ClassId) (found : OrderedSet ClassId) (waiting : List ClassId) : Prop where
  sound : ∀ c, c ∈ found → Relation.TransGen (Leads next) start c
  waits : ∀ c ∈ waiting, c = start ∨ c ∈ found
  done : ∀ c, c = start ∨ c ∈ found → c ∈ waiting ∨ ∀ d ∈ next c, d ∈ found

variable {next} {start : ClassId} {found : OrderedSet ClassId} {waiting : List ClassId}

theorem Exploring.visit {id : ClassId} (exploring : Exploring next start found (id :: waiting)) :
    Exploring next start (discover found waiting (next id)).1 (discover found waiting (next id)).2 where
  sound c member := by
    rcases (mem_discover _ _ _ c).mp member with old | leads
    · exact exploring.sound c old
    · rcases exploring.waits id List.mem_cons_self with isStart | known
      · exact isStart ▸ .single leads
      · exact (exploring.sound id known).tail leads
  waits c member := by
    rcases (mem_discover_waiting _ _ _ c).mp member with old | ⟨leads, _⟩
    · exact (exploring.waits c (List.mem_cons_of_mem _ old)).imp_right
        fun known => (mem_discover _ _ _ c).mpr (.inl known)
    · exact .inr ((mem_discover _ _ _ c).mpr (.inr leads))
  done c known := by
    by_cases before : c = start ∨ c ∈ found
    · rcases exploring.done c before with waited | closed
      · rcases List.mem_cons.mp waited with rfl | waits
        · exact .inr fun d leads => (mem_discover _ _ _ d).mpr (.inr leads)
        · exact .inl ((mem_discover_waiting _ _ _ c).mpr (.inl waits))
      · exact .inr fun d leads => (mem_discover _ _ _ d).mpr (.inl (closed d leads))
    · rw [not_or] at before
      rcases known with isStart | member
      · exact absurd isStart before.1
      · have leads := ((mem_discover _ _ _ c).mp member).resolve_left before.2
        exact .inl ((mem_discover_waiting _ _ _ c).mpr (.inr ⟨leads, before.2⟩))

theorem Exploring.complete (exploring : Exploring next start found []) (c : ClassId) :
    c ∈ found ↔ Relation.TransGen (Leads next) start c := by
  have closed : ∀ c, c = start ∨ c ∈ found → ∀ d ∈ next c, d ∈ found := by
    intro c known
    rcases exploring.done c known with waits | closed
    · cases waits
    · exact closed
  constructor
  · exact exploring.sound c
  · intro path
    induction path with
    | single leads => exact closed start (.inl rfl) _ leads
    | tail _ leads ih => exact closed _ (.inr ih) _ leads

-- The search comes to an end: the classes that it visits in turn, and what it has found then.
inductive Searches (next : ClassId → List ClassId) :
    OrderedSet ClassId → List ClassId → List ClassId → OrderedSet ClassId → Prop
  | done (found : OrderedSet ClassId) : Searches next found [] [] found
  | visit {found result : OrderedSet ClassId} {id : ClassId} {waiting visited : List ClassId}
      (rest : Searches next (discover found waiting (next id)).1 (discover found waiting (next id)).2
        visited result) : Searches next found (id :: waiting) (id :: visited) result

theorem Searches.kept {visited : List ClassId} {result : OrderedSet ClassId}
    (searches : Searches next found waiting visited result) (c : ClassId) (known : c ∈ found) :
    c ∈ result := by
  induction searches with
  | done => exact known
  | visit _ ih => exact ih ((mem_discover _ _ _ c).mpr (.inl known))

theorem Searches.mem_visited {visited : List ClassId} {result : OrderedSet ClassId}
    (searches : Searches next found waiting visited result) (c : ClassId) :
    c ∈ visited ↔ c ∈ waiting ∨ (c ∈ result ∧ c ∉ found) := by
  induction searches with
  | done found => simp
  | @visit found result id waiting visited rest ih =>
      have later := rest.kept c
      rw [mem_discover] at later
      rw [List.mem_cons, List.mem_cons, ih, mem_discover, mem_discover_waiting]
      grind

theorem Searches.mem_result {visited : List ClassId} {result : OrderedSet ClassId}
    (searches : Searches next found waiting visited result)
    (exploring : Exploring next start found waiting) (c : ClassId) :
    c ∈ result ↔ Relation.TransGen (Leads next) start c := by
  induction searches with
  | done => exact exploring.complete c
  | visit _ ih => exact ih exploring.visit

theorem searches_closure (classes : List ClassId) (inside : ∀ c d, d ∈ next c → d ∈ classes) (fuel : Nat)
    (found : OrderedSet ClassId) (waiting : List ClassId)
    (enough : waiting.length + missing classes found ≤ fuel) :
    ∃ visited, Searches next found waiting visited (closure next found waiting fuel) ∧
      visited.length ≤ fuel := by
  induction fuel generalizing found waiting with
  | zero =>
      obtain rfl : waiting = [] := List.length_eq_zero_iff.mp (by omega)
      rw [closure]
      exact ⟨[], .done found, Nat.le_refl _⟩
  | succ fuel ih =>
      cases waiting with
      | nil =>
          rw [closure]
          exact ⟨[], .done found, Nat.zero_le _⟩
      | cons id waiting =>
          have remaining := discover_remaining classes (next id) found waiting (inside id)
          rw [List.length_cons] at enough
          obtain ⟨visited, searches, few⟩ := ih _ _ (Nat.le_trans remaining (by omega))
          rw [closure]
          exact ⟨id :: visited, .visit searches, Nat.succ_le_succ few⟩

end Search

theorem ancestors_same_links (p q : Program) (same : SameLinks p q) (c : ClassId) :
    q.ancestors c = p.ancestors c := by
  have size : q.classes.size = p.classes.size := by
    have lengths := congrArg List.length same.classIds
    rwa [classIds, classIds, Table.keys, Table.keys, List.length_map, List.length_map] at lengths
  have parents : ∀ c, q.parentNames c = p.parentNames c := fun c =>
    congrArg (·.getD []) (same.reads (fun l => l.superName.toList ++ l.interfaces) c)
  have next : (fun c => (q.parentNames c).filterMap q.findClass?) =
      fun c => (p.parentNames c).filterMap p.findClass? := by
    funext c
    rw [parents c, show q.findClass? = p.findClass? from funext same.find_class]
  rw [ancestors, reach, size, next, ancestors, reach]

variable (p : Program)

theorem searches_reach (next : ClassId → List ClassId) (inside : ∀ c d, d ∈ next c → d ∈ p.classIds)
    (id : ClassId) : ∃ visited, Searches next .empty [id] visited (p.reach next id) ∧
      visited.length ≤ p.classes.size + 1 := by
  have most : missing p.classIds .empty ≤ p.classes.size :=
    Nat.le_trans (List.length_filter_le _ _) (Nat.le_of_eq (List.length_map _))
  apply searches_closure p.classIds inside
  rw [List.length_singleton]
  omega

theorem mem_reach (next : ClassId → List ClassId) (inside : ∀ c d, d ∈ next c → d ∈ p.classIds)
    (id c : ClassId) : c ∈ p.reach next id ↔ Relation.TransGen (Leads next) id c := by
  obtain ⟨visited, searches, _⟩ := p.searches_reach next inside id
  refine searches.mem_result ⟨?_, ?_, ?_⟩ c
  · exact fun c member => absurd member (OrderedSet.not_mem_empty c)
  · exact fun c member => .inl (List.mem_singleton.mp member)
  · intro c known
    rcases known with isStart | member
    · exact .inl (List.mem_singleton.mpr isStart)
    · exact absurd member (OrderedSet.not_mem_empty c)

-- The class names the other one, which is loaded, as its superclass or as one of its interfaces.
def Extends (c d : ClassId) : Prop := ∃ k, d ∈ p.parents k c

def Supertype (c d : ClassId) : Prop := Relation.TransGen p.Extends c d

-- The loaded parents of a class, whichever way it names them.
def upward (c : ClassId) : List ClassId := (p.parentNames c).filterMap p.findClass?

-- The class or a supertype of it gives a parent that is not loaded and not the root class.
def UnknownAbove (c : ClassId) : Prop := ∃ d, (d = c ∨ p.Supertype c d) ∧
  ∃ k, ∃ name ∈ p.givenParents k d, p.findClass? name = none ∧ name ≠ rootClass

-- One of the parents that the class gives is neither loaded nor the root class.
def givesUnknown (c : ClassId) : Bool :=
  (p.parentNames c).any fun name => (p.findClass? name).isNone && name ≠ rootClass

-- The class gives the name as that of its superclass or of one of its interfaces.
def Gives (c : ClassId) (name : String) : Prop :=
  ∃ k, p.class? c = some k ∧ (k.superName = some name ∨ name ∈ k.interfaces)

-- From one class to the other by names of loaded classes, each given by the class before.
inductive NameChain (p : Program) : ClassId → List String → ClassId → Prop
  | here (c : ClassId) : NameChain p c [] c
  | above {c d e : ClassId} {name : String} {names : List String} (gives : p.Gives c name)
      (loaded : p.className? d = some name) (rest : NameChain p d names e) :
      NameChain p c (name :: names) e

theorem mem_parent_names (c : ClassId) (name : String) :
    name ∈ p.parentNames c ↔ ∃ k, name ∈ p.givenParents k c := by
  have names : p.parentNames c = p.givenParents .superclass c ++ p.givenParents .interface c := by
    rw [parentNames, givenParents, givenParents]
    cases p.class? c <;> rfl
  rw [names, List.mem_append]
  constructor
  · intro among
    exact among.elim (fun member => ⟨.superclass, member⟩) fun member => ⟨.interface, member⟩
  · intro given
    obtain ⟨k, member⟩ := given
    cases k with
    | superclass => exact .inl member
    | interface => exact .inr member

theorem gives_iff (c : ClassId) (name : String) : p.Gives c name ↔ ∃ k, name ∈ p.givenParents k c := by
  simp only [mem_given_parents]
  constructor
  · rintro ⟨d, live, isSuper | isInterface⟩
    · exact ⟨.superclass, d, live, Option.mem_toList.mpr isSuper⟩
    · exact ⟨.interface, d, live, isInterface⟩
  · rintro ⟨k, d, live, given⟩
    cases k with
    | superclass => exact ⟨d, live, .inl (Option.mem_toList.mp given)⟩
    | interface => exact ⟨d, live, .inr given⟩

theorem extends_iff (c d : ClassId) : p.Extends c d ↔ Leads p.upward c d := by
  rw [Leads, upward, List.mem_filterMap]
  constructor
  · intro parent
    obtain ⟨k, member⟩ := parent
    obtain ⟨name, given, found⟩ := (mem_parents p k d c).mp member
    exact ⟨name, (p.mem_parent_names c name).mpr ⟨k, given⟩, found⟩
  · intro leads
    obtain ⟨name, among, found⟩ := leads
    obtain ⟨k, given⟩ := (p.mem_parent_names c name).mp among
    exact ⟨k, (mem_parents p k d c).mpr ⟨name, given, found⟩⟩

theorem has_unknown_ancestor_visited (c : ClassId) (visited : List ClassId)
    (searches : Searches p.upward .empty [c] visited (p.ancestors c)) :
    p.hasUnknownAncestor c = visited.any p.givesUnknown := by
  rw [Bool.eq_iff_iff, hasUnknownAncestor, List.any_eq_true, List.any_eq_true]
  apply exists_congr
  intro d
  rw [searches.mem_visited, List.mem_singleton, List.mem_cons, OrderedSet.mem_to_list]
  have nothing := OrderedSet.not_mem_empty d
  simp only [nothing, not_false_iff, and_true]
  rfl

section Indexed

variable (indexed : p.ClassesIndexed)

include indexed

theorem upward_live (c d : ClassId) (leads : d ∈ p.upward c) : d ∈ p.classIds := by
  obtain ⟨k, member⟩ := (p.extends_iff c d).mpr leads
  exact (Table.mem_keys_iff _ d).mpr (Option.isSome_iff_exists.mp (parent_live p indexed k d c member))

theorem searches_ancestors (c : ClassId) :
    ∃ visited, Searches p.upward .empty [c] visited (p.ancestors c) ∧
      visited.length ≤ p.classes.size + 1 :=
  p.searches_reach p.upward (p.upward_live indexed) c

theorem mem_ancestors (c d : ClassId) : d ∈ p.ancestors c ↔ p.Supertype c d := by
  have same : p.Extends = Leads p.upward := by
    funext c d
    exact propext (p.extends_iff c d)
  rw [Supertype, same]
  exact p.mem_reach p.upward (p.upward_live indexed) c d

theorem has_unknown_ancestor_iff (c : ClassId) : p.hasUnknownAncestor c = true ↔ p.UnknownAbove c := by
  rw [hasUnknownAncestor, List.any_eq_true, UnknownAbove]
  apply exists_congr
  intro d
  rw [List.mem_cons, OrderedSet.mem_to_list, p.mem_ancestors indexed, List.any_eq_true]
  apply and_congr_right
  intro _
  simp only [mem_parent_names, Bool.and_eq_true, Option.isNone_iff_eq_none, decide_eq_true_eq]
  constructor
  · intro unloaded
    obtain ⟨name, given, unknown⟩ := unloaded
    obtain ⟨k, member⟩ := given
    exact ⟨k, name, member, unknown⟩
  · intro unloaded
    obtain ⟨k, name, member, unknown⟩ := unloaded
    exact ⟨name, ⟨k, member⟩, unknown⟩

section Linked

variable (linked : p.Linked)

include linked

theorem extends_iff_child (c d : ClassId) : p.Extends d c ↔ Leads p.children c d := by
  have matched := (linked_iff p indexed).mp linked
  have named : p.Extends d c ↔ ∃ k, p.Lists k c d := exists_congr fun k => (matched k c d).symm
  rw [named, Leads, children]
  cases live : p.class? c with
  | none => simp [Lists, live]
  | some k =>
      rw [Option.map_some, Option.getD_some, List.mem_append, OrderedSet.mem_to_list,
        OrderedSet.mem_to_list]
      simp only [Lists, live, Option.some.injEq, exists_eq_left']
      constructor
      · intro lists
        obtain ⟨kind, member⟩ := lists
        cases kind with
        | superclass => exact .inl member
        | interface => exact .inr member
      · intro among
        rcases among with member | member
        · exact ⟨.superclass, member⟩
        · exact ⟨.interface, member⟩

theorem child_live (c d : ClassId) (leads : d ∈ p.children c) : d ∈ p.classIds := by
  obtain ⟨k, member⟩ := (p.extends_iff_child indexed linked c d).mpr leads
  obtain ⟨name, given, _⟩ := (mem_parents p k c d).mp member
  obtain ⟨e, live, _⟩ := (mem_given_parents p k d name).mp given
  exact (Table.mem_keys_iff _ d).mpr ⟨e, live⟩

theorem searches_descendants (c : ClassId) :
    ∃ visited, Searches p.children .empty [c] visited (p.descendants c) ∧
      visited.length ≤ p.classes.size + 1 :=
  p.searches_reach p.children (p.child_live indexed linked) c

theorem mem_descendants (c d : ClassId) : d ∈ p.descendants c ↔ p.Supertype d c := by
  have same : Function.swap p.Extends = Leads p.children := by
    funext c d
    exact propext (p.extends_iff_child indexed linked c d)
  rw [Supertype, ← Relation.transGen_swap, same]
  exact p.mem_reach p.children (p.child_live indexed linked) c d

end Linked

theorem extends_iff_gives (c d : ClassId) :
    p.Extends c d ↔ ∃ name, p.Gives c name ∧ p.className? d = some name := by
  constructor
  · rintro ⟨k, member⟩
    obtain ⟨name, given, found⟩ := (mem_parents p k d c).mp member
    exact ⟨name, (p.gives_iff c name).mpr ⟨k, given⟩, (indexed.names name d).mp found⟩
  · rintro ⟨name, gives, loaded⟩
    obtain ⟨k, given⟩ := (p.gives_iff c name).mp gives
    exact ⟨k, (mem_parents p k d c).mpr ⟨name, given, (indexed.names name d).mpr loaded⟩⟩

theorem supertype_iff_chain (c d : ClassId) :
    p.Supertype c d ↔ ∃ names, names ≠ [] ∧ p.NameChain c names d := by
  constructor
  · intro supertype
    induction supertype using Relation.TransGen.head_induction_on with
    | single first =>
        obtain ⟨name, gives, loaded⟩ := (p.extends_iff_gives indexed _ _).mp first
        exact ⟨[name], List.cons_ne_nil _ _, .above gives loaded (.here d)⟩
    | head first _ ih =>
        obtain ⟨name, gives, loaded⟩ := (p.extends_iff_gives indexed _ _).mp first
        obtain ⟨names, _, chain⟩ := ih
        exact ⟨name :: names, List.cons_ne_nil _ _, .above gives loaded chain⟩
  · rintro ⟨names, nonempty, chain⟩
    induction chain with
    | here => exact absurd rfl nonempty
    | @above c e d name names gives loaded rest ih =>
        have first := (p.extends_iff_gives indexed c e).mpr ⟨name, gives, loaded⟩
        cases rest with
        | here => exact .single first
        | above => exact .head first (ih (List.cons_ne_nil _ _))

theorem unknown_above_iff_chain (c : ClassId) : p.UnknownAbove c ↔ ∃ names d name,
    p.NameChain c names d ∧ p.Gives d name ∧ (∀ e, p.className? e ≠ some name) ∧ name ≠ rootClass := by
  have unloaded : ∀ name, p.findClass? name = none ↔ ∀ e, p.className? e ≠ some name := by
    intro name
    rw [Option.eq_none_iff_forall_ne_some]
    exact forall_congr' fun e => not_congr (indexed.names name e)
  constructor
  · rintro ⟨d, above, k, name, given, unknown, other⟩
    have gives := (p.gives_iff d name).mpr ⟨k, given⟩
    rcases above with rfl | supertype
    · exact ⟨[], d, name, .here d, gives, (unloaded name).mp unknown, other⟩
    · obtain ⟨names, _, chain⟩ := (p.supertype_iff_chain indexed c d).mp supertype
      exact ⟨names, d, name, chain, gives, (unloaded name).mp unknown, other⟩
  · rintro ⟨names, d, name, chain, gives, unknown, other⟩
    obtain ⟨k, given⟩ := (p.gives_iff d name).mp gives
    refine ⟨d, ?_, k, name, given, (unloaded name).mpr unknown, other⟩
    cases chain with
    | here => exact .inl rfl
    | above first loaded rest =>
        exact .inr ((p.supertype_iff_chain indexed c d).mpr
          ⟨_, List.cons_ne_nil _ _, .above first loaded rest⟩)

-- The two searches are each other's converse, circles included: one follows names and the other links,
-- and both follow the chains of names from a class to its supertypes. Either ends after it has visited
-- every class once at most, and the one that it starts from once more; the one for supertypes comes upon
-- an unknown name exactly if such a chain leads to a class that gives one.
theorem ancestors_descendants_converse (linked : p.Linked) (c d : ClassId) :
    (d ∈ p.descendants c ↔ c ∈ p.ancestors d) ∧
    (c ∈ p.ancestors d ↔ ∃ names, names ≠ [] ∧ p.NameChain d names c) ∧
    (p.hasUnknownAncestor d = true ↔ ∃ names e name, p.NameChain d names e ∧ p.Gives e name ∧
      (∀ id, p.className? id ≠ some name) ∧ name ≠ rootClass) ∧
    (∃ visited, Searches p.upward .empty [d] visited (p.ancestors d) ∧
      visited.length ≤ p.classes.size + 1 ∧ p.hasUnknownAncestor d = visited.any p.givesUnknown) ∧
    ∃ visited, Searches p.children .empty [c] visited (p.descendants c) ∧
      visited.length ≤ p.classes.size + 1 := by
  refine ⟨?_, ?_, ?_, ?_, p.searches_descendants indexed linked c⟩
  · rw [p.mem_descendants indexed linked, p.mem_ancestors indexed]
  · rw [p.mem_ancestors indexed, p.supertype_iff_chain indexed]
  · rw [p.has_unknown_ancestor_iff indexed, p.unknown_above_iff_chain indexed]
  · obtain ⟨visited, searches, few⟩ := p.searches_ancestors indexed d
    exact ⟨visited, searches, few, p.has_unknown_ancestor_visited d visited searches⟩

end Indexed

end Program

namespace Session

-- `A` and `B` extend each other, so that each is its own supertype, and `C` below them has another
-- parent that is not loaded.
theorem ancestors_descendants_converse_knotted :
    let p := (reached {} knotted).linkHierarchy
    (p.ClassesIndexed ∧ p.Linked) ∧
      (⟨1⟩ ∈ p.descendants ⟨1⟩ ∧ ∃ names, names ≠ [] ∧ p.NameChain ⟨1⟩ names ⟨1⟩) ∧
      (⟨3⟩ ∈ p.descendants ⟨1⟩ ∧ ∃ names, names ≠ [] ∧ p.NameChain ⟨3⟩ names ⟨1⟩) ∧
      (⟨1⟩ ∉ p.descendants ⟨3⟩ ∧ ¬∃ names, names ≠ [] ∧ p.NameChain ⟨1⟩ names ⟨3⟩) ∧
      p.hasUnknownAncestor ⟨3⟩ = true ∧ p.hasUnknownAncestor ⟨1⟩ = false := by
  intro p
  have legal := class_names_legal_of_rows (reached {} knotted) (by decide)
  have exactly : p.ExactHierarchy := Program.exact_hierarchy_link_hierarchy (reached {} knotted)
    (classes_indexed_reached {} knotted) legal
  have searches := p.ancestors_descendants_converse exactly.indexed exactly.linked
  have circle : ⟨1⟩ ∈ p.ancestors ⟨1⟩ := by decide +kernel
  have below : ⟨1⟩ ∈ p.ancestors ⟨3⟩ := by decide +kernel
  have apart : ⟨3⟩ ∉ p.ancestors ⟨1⟩ := by decide +kernel
  exact ⟨⟨exactly.indexed, exactly.linked⟩,
    ⟨(searches ⟨1⟩ ⟨1⟩).1.mpr circle, (searches ⟨1⟩ ⟨1⟩).2.1.mp circle⟩,
    ⟨(searches ⟨1⟩ ⟨3⟩).1.mpr below, (searches ⟨1⟩ ⟨3⟩).2.1.mp below⟩,
    ⟨mt (searches ⟨3⟩ ⟨1⟩).1.mp apart, mt (searches ⟨3⟩ ⟨1⟩).2.1.mpr apart⟩,
    by decide +kernel, by decide +kernel⟩

end Session

end JvmEdit
