import JvmEdit.Libraries.Standard
import JvmEdit.Proofs.Edit.Refused
import JvmEdit.Proofs.Hierarchy.Relink
import JvmEdit.Proofs.Index.Session
set_option autoImplicit false

namespace JvmEdit

namespace Program

-- The program that an edit in place leaves behind, also where it is refused.
def carryOut [Libraries] (p : Program) (e : Edit) : Program :=
    (e.inPlace.perform { value := p }).2.value

theorem carry_out_eq [Libraries] (p : Program) (e : Edit) : p.carryOut e =
    match p.outcome e with
    | .ok q => q.value
    | .error _ => p := by
  rw [carryOut, Edit.perform_in_place]
  cases p.outcome e <;> rfl

end Program

theorem Program.edit_eq [Libraries] (p : Program) (e : MemberEdit) :
    p.edit e = (p.memberOutcome e).map (·.value) := by
  cases e with
  | renameField id new => simp only [edit, memberOutcome]; cases p.renameField id new <;> rfl
  | renameMethod id new => simp only [edit, memberOutcome]; cases p.renameMethod id new <;> rfl
  | moveField id destination => simp only [edit, memberOutcome]; cases p.moveField id destination <;> rfl
  | moveMethod id destination => simp only [edit, memberOutcome]; cases p.moveMethod id destination <;> rfl
  | deleteField id => rfl
  | deleteMethod id => rfl
  | deleteInstructions id insns =>
      simp only [edit, memberOutcome]
      cases p.deleteInstructions id insns <;> rfl

-- A new name that an edit gives to a class is a legal one.
def Edit.LegalName : Edit → Prop
  | .renameClass _ new => LegalClassName new
  | _ => True

instance Edit.decidableLegalName : (e : Edit) → Decidable e.LegalName
  | .renameClass _ new => inferInstanceAs (Decidable (LegalClassName new))
  | .member _ | .body .. => inferInstanceAs (Decidable True)

namespace Program

-- Links that are exact and stay so: names find classes, and no class name looks like an array's.
structure ExactHierarchy (p : Program) : Prop where
  indexed : p.ClassesIndexed
  legal : p.ClassNamesLegal
  linked : p.Linked

section Edits

variable (p q : Program)

theorem exact_hierarchy_same_links (same : SameLinks p q) (exactly : p.ExactHierarchy) :
    q.ExactHierarchy where
  indexed := classes_indexed_same_links p q same exactly.indexed
  legal := fun id name live => exactly.legal id name ((same.class_name id).symm.trans live)
  linked := (linked_iff q (classes_indexed_same_links p q same exactly.indexed)).mpr
    (matched_same_links p q same ((linked_iff p exactly.indexed).mp exactly.linked))

theorem classes_indexed_rename_class (id : ClassId) (new : String) (indexed : p.ClassesIndexed)
    (done : p.renameClass id new = .ok q) : q.ClassesIndexed := by
  obtain ⟨old, live, ⟨_, rfl⟩ | ⟨free, m, same, rfl⟩⟩ :=
    rename_class_headed p q id new (Table.keys_nodup _ indexed.order) done
  · exact indexed
  · have headed := classes_indexed_headed p id ⟨old, new⟩ indexed live free
    exact classes_indexed_same_parents _ _ (same_parents_relink_class m id)
      (classes_indexed_same_links _ m same headed)

theorem exact_hierarchy_rename_class (id : ClassId) (new : String) (legal : LegalClassName new)
    (exactly : p.ExactHierarchy) (done : p.renameClass id new = .ok q) : q.ExactHierarchy := by
  have indexed := classes_indexed_rename_class p q id new exactly.indexed done
  obtain ⟨old, live, ⟨_, rfl⟩ | ⟨free, m, same, rfl⟩⟩ :=
    rename_class_headed p q id new (Table.keys_nodup _ exactly.indexed.order) done
  · exact exactly
  · refine ⟨indexed, ?_, ?_⟩
    · intro c name named
      rw [(same_parents_relink_class m id).class_name, same.class_name,
        class_name?_headed p id ⟨old, new⟩ live, nameAfter] at named
      split at named
      · cases named
        exact legal
      · exact exactly.legal c name named
    · have matched := (linked_iff p exactly.indexed).mp exactly.linked
      exact (linked_iff _ indexed).mpr (matched_relink_class p id ⟨old, new⟩ m exactly.indexed
        exactly.legal matched live free same)

theorem same_links_member_outcome [Libraries] (e : MemberEdit) (logged : Logged Program)
    (done : p.memberOutcome e = .ok logged) : SameLinks p logged.value := by
  cases e with
  | renameField id new =>
      obtain ⟨r, renamed, rfl⟩ := except_map _ _ _ done
      exact same_links_rename_field p r id new renamed
  | renameMethod id new =>
      obtain ⟨r, renamed, rfl⟩ := except_map _ _ _ done
      exact same_links_rename_method p r id new renamed
  | moveField id destination =>
      obtain ⟨r, moved, rfl⟩ := except_map _ _ _ done
      exact same_links_move_field p r id destination moved
  | moveMethod id destination =>
      obtain ⟨r, moved, rfl⟩ := except_map _ _ _ done
      exact same_links_move_method p r id destination moved
  | deleteField id => exact same_links_delete_field p logged id done
  | deleteMethod id => exact same_links_delete_method p logged id done
  | deleteInstructions id insns =>
      obtain ⟨r, deleted, rfl⟩ := except_map _ _ _ done
      exact same_links_delete_instructions p r id insns deleted

theorem exact_hierarchy_carry_out [Libraries] (e : Edit) (legal : e.LegalName)
    (exactly : p.ExactHierarchy) : (p.carryOut e).ExactHierarchy := by
  rw [carry_out_eq]
  split
  · rename_i logged done
    cases e with
    | renameClass id new =>
        obtain ⟨r, renamed, rfl⟩ := except_map _ _ _ done
        exact exact_hierarchy_rename_class p r id new legal exactly renamed
    | member e => exact exact_hierarchy_same_links p _ (same_links_member_outcome p e logged done) exactly
    | body id f => exact exact_hierarchy_same_links p _ (same_links_edit_body p logged id f done) exactly
  · exact exactly

theorem classes_indexed_carry_out [Libraries] (e : Edit) (indexed : p.ClassesIndexed) :
    (p.carryOut e).ClassesIndexed := by
  rw [carry_out_eq]
  split
  · rename_i logged done
    cases e with
    | renameClass id new =>
        obtain ⟨r, renamed, rfl⟩ := except_map _ _ _ done
        exact classes_indexed_rename_class p r id new indexed renamed
    | member e => exact classes_indexed_same_links p _ (same_links_member_outcome p e logged done) indexed
    | body id f => exact classes_indexed_same_links p _ (same_links_edit_body p logged id f done) indexed
  · exact indexed

theorem exact_hierarchy_carry_outs [Libraries] (edits : List Edit) (legal : ∀ e ∈ edits, e.LegalName)
    (exactly : p.ExactHierarchy) : (edits.foldl carryOut p).ExactHierarchy := by
  induction edits generalizing p with
  | nil => exact exactly
  | cons e edits ih =>
      apply ih
      · exact fun later member => legal later (List.mem_cons_of_mem _ member)
      · exact exact_hierarchy_carry_out p e (legal e List.mem_cons_self) exactly

theorem exact_hierarchy_link_hierarchy (indexed : p.ClassesIndexed) (legal : p.ClassNamesLegal) :
    p.linkHierarchy.ExactHierarchy := by
  have same := same_parents_link_hierarchy p (Table.keys_nodup _ indexed.order)
  have indexedNow := classes_indexed_same_parents p _ same indexed
  refine ⟨indexedNow, ?_, (linked_iff _ indexedNow).mpr (matched_link_hierarchy p indexed)⟩
  intro id name live
  exact legal id name ((same.class_name id).symm.trans live)

end Edits

theorem classes_indexed_empty (p : Program) (index : p.index = .empty) (classes : p.classes = .empty) :
    p.ClassesIndexed := by
  obtain ⟨settings, nextId, _, _, fields, methods⟩ := p
  subst index classes
  refine ⟨?_, Table.ordered_empty, ?_⟩
  · intro name id
    constructor <;> intro found <;> cases found
  · intro id live
    cases live

theorem classes_indexed_enter (p : Program) (id : ClassId) (c : Class) (indexed : p.ClassesIndexed)
    (dead : p.className? id = none) (fresh : id.val < p.nextId) (free : p.findClass? c.name = none) :
    (p.enter id c).ClassesIndexed where
  names := by
    have inserted := Table.inverse_insert _ _ c.name id indexed.names free dead
    intro name other
    refine (inserted name other).trans ?_
    rw [class_name?_enter]
    by_cases same : other = id
    · simp [same]
    · simp [same, Ne.symm same]
  order := Table.ordered_insert _ _ _ indexed.order
  fresh := by
    intro other live
    rw [class_name?_enter] at live
    split at live
    · rename_i same
      exact same ▸ fresh
    · exact indexed.fresh other live

end Program

namespace Builder

variable (b : Builder)

theorem same_links_flush : b.program.SameLinks b.flush.program := by
  simp only [flush]
  split
  · exact .refl _
  · exact Program.same_links_update_method _ _ _

theorem classes_indexed_enter_class (h : ClassHeader) (indexed : b.program.ClassesIndexed) :
    (b.enterClass h).program.ClassesIndexed := by
  have advanced := Program.classes_indexed_same_links _ _ (b.program.same_links_advance 1) indexed
  have dead : b.program.className? ⟨b.program.nextId⟩ = none := by
    cases live : b.program.className? ⟨b.program.nextId⟩ with
    | none => rfl
    | some name => exact absurd (indexed.fresh _ (by rw [live]; rfl)) (Nat.lt_irrefl _)
  rcases b.enter_class_cases h with same | ⟨c, _, free, _, _, _, entered⟩
  · exact same ▸ advanced
  · rw [entered]
    exact Program.classes_indexed_enter (b.program.advance 1) ⟨b.program.nextId⟩ c advanced dead
      (Nat.lt_succ_self _) free

theorem same_links_enter_field (d : FieldDecl) :
    b.program.SameLinks (b.enterField d).program := by
  unfold enterField
  split
  · exact .refl _
  · rename_i owner _
    dsimp only
    split
    · rename_i done
      exact (b.program.same_links_advance 1).trans (Program.same_links_attach_field _ _ _ _ _ done)
    · exact b.program.same_links_advance 1

theorem same_links_enter_method (d : MethodDecl) :
    b.program.SameLinks (b.enterMethod d).program := by
  unfold enterMethod
  split
  · exact .refl _
  · rename_i owner _
    dsimp only
    split
    · rename_i done
      exact (b.program.same_links_advance 1).trans (Program.same_links_attach_method _ _ _ _ _ done)
    · exact b.program.same_links_advance 1

theorem classes_indexed_step (event : ClassEvent) (indexed : b.program.ClassesIndexed) :
    (b.step event).program.ClassesIndexed := by
  have flushed := Program.classes_indexed_same_links _ _ (same_links_flush b) indexed
  cases event with
  | header h => exact classes_indexed_enter_class b.flush h flushed
  | field d => exact Program.classes_indexed_same_links _ _ (same_links_enter_field b d) indexed
  | method d =>
      exact Program.classes_indexed_same_links _ _ (same_links_enter_method { b.flush with labels := #[] } d)
        flushed
  | newLabel => exact Program.classes_indexed_same_links _ _ (b.program.same_links_advance 2) indexed
  | instruction opcode operand =>
      change (b.addInstruction opcode operand).program.ClassesIndexed
      simp only [addInstruction]
      split
      · exact indexed
      · exact Program.classes_indexed_same_links _ _ (b.program.same_links_advance 1) indexed
  | tryRange d =>
      change (b.addTryRange d).program.ClassesIndexed
      simp only [addTryRange]
      split <;> exact indexed
  | localVariable d =>
      change (b.addLocal d).program.ClassesIndexed
      simp only [addLocal]
      split <;> exact indexed
  | methodEnd maxStack maxLocals =>
      change (b.endMethod maxStack maxLocals).program.ClassesIndexed
      simp only [endMethod]
      split
      · exact indexed
      · refine Program.classes_indexed_same_links _ _ ?_ indexed
        refine .trans ?_ (same_links_flush _)
        exact Program.same_links_update_method _ _ _
  | classEnd => exact flushed

end Builder

-- One thing that can happen to the program of a session.
inductive HistoryStep
  | act (action : SessionAction)
  | edit (e : Edit)
  | link
  | resolve

namespace Session

def proceed [Libraries] (s : Session) : HistoryStep → Session
  | .act action => s.act action
  | .edit e => { s with program := s.program.carryOut e }
  | .link => { s with program := s.program.linkHierarchy }
  | .resolve => { s with program := s.program.resolveAll.1 }

-- The program that a history has led to.
def reached [Libraries] (settings : Settings) (history : List HistoryStep) : Program :=
  (history.foldl proceed (start settings)).program

theorem program_act_rename_class [Libraries] (s : Session) (id : ClassId) (new : String) :
    (s.act (.renameClass id new)).program = s.program.carryOut (.renameClass id new) := by
  rw [Program.carry_out_eq]
  dsimp only [act, Program.outcome]
  cases s.program.renameClass id new <;> rfl

theorem program_act_edit [Libraries] (s : Session) (e : MemberEdit) :
    (s.act (.edit e)).program = s.program.carryOut (.member e) := by
  rw [Program.carry_out_eq]
  dsimp only [act, Program.perform, Program.outcome]
  rw [Program.edit_eq]
  cases s.program.memberOutcome e <;> rfl

theorem classes_indexed_act [Libraries] (s : Session) (action : SessionAction)
    (indexed : s.program.ClassesIndexed) : (s.act action).program.ClassesIndexed := by
  cases action with
  | openBuilder => exact indexed
  | visit builder event =>
      change (s.visit builder event).program.ClassesIndexed
      simp only [visit]
      split
      · exact indexed
      · exact Builder.classes_indexed_step _ event indexed
  | renameClass id new =>
      rw [program_act_rename_class]
      exact Program.classes_indexed_carry_out s.program _ indexed
  | edit e =>
      rw [program_act_edit]
      exact Program.classes_indexed_carry_out s.program _ indexed
  | clear => exact Program.classes_indexed_empty _ rfl rfl

theorem classes_indexed_proceed [Libraries] (s : Session) (step : HistoryStep)
    (indexed : s.program.ClassesIndexed) : (s.proceed step).program.ClassesIndexed := by
  cases step with
  | act action => exact classes_indexed_act s action indexed
  | edit e => exact Program.classes_indexed_carry_out s.program e indexed
  | link =>
      have same := Program.same_parents_link_hierarchy s.program (Table.keys_nodup _ indexed.order)
      exact Program.classes_indexed_same_parents _ _ same indexed
  | resolve => exact Program.classes_indexed_same_links _ _ (Program.same_links_resolve_all s.program) indexed

theorem classes_indexed_reached [Libraries] (settings : Settings) (history : List HistoryStep) :
    (reached settings history).ClassesIndexed := by
  have run : ∀ s : Session, s.program.ClassesIndexed →
      (history.foldl proceed s).program.ClassesIndexed := by
    induction history with
    | nil => exact fun _ indexed => indexed
    | cons step history ih => exact fun s indexed => ih (s.proceed step) (classes_indexed_proceed s step indexed)
  exact run (start settings) (Program.classes_indexed_empty _ rfl rfl)

-- Whatever a program has been through: once its classes are linked, the links are exact and stay so
-- through all edits, whether these succeed or not.
theorem linked_edits [Libraries] (settings : Settings) (history : List HistoryStep) (edits : List Edit)
    (legal : (reached settings history).ClassNamesLegal) (given : ∀ e ∈ edits, e.LegalName) :
    let p := edits.foldl Program.carryOut (reached settings history).linkHierarchy
    p.Linked ∧ ∀ child parent, p.superclass? child = some parent ↔
      ∃ c, p.class? parent = some c ∧ child ∈ c.subclasses := by
  intro p
  have start := Program.exact_hierarchy_link_hierarchy (reached settings history)
    (classes_indexed_reached settings history) legal
  have exactly := Program.exact_hierarchy_carry_outs _ edits given start
  exact ⟨exactly.linked, Program.superclass?_iff p exactly.indexed exactly.linked⟩

-- `A` and `B` extend each other, `B` implements `A` twice, and `C` extends a class `N` that is not
-- loaded; `C` has a method.
def knotted : List HistoryStep :=
  let header (name : String) (superName : String) (interfaces : List String) : SessionAction :=
    .visit 0 (.header ⟨name, some superName, interfaces, none, default, 52, [], []⟩)
  [.act .openBuilder, .act (header "A" "B" []), .act (header "B" "A" ["A", "A"]),
    .act (header "C" "N" ["B"]), .act (.visit 0 (.method ⟨"m", "()V", none, default, [], []⟩)),
    .act (.visit 0 .classEnd)]

theorem class_names_legal_of_rows (p : Program) (legal : ∀ c ∈ p.classes.values, LegalClassName c.name) :
    p.ClassNamesLegal := by
  intro id name live
  obtain ⟨c, found, rfl⟩ := Option.map_eq_some_iff.mp live
  exact legal c (List.mem_map.mpr ⟨_, Table.mem_of_find _ _ _ found, rfl⟩)

-- `A` takes the name that `C` already gives its parent, a renaming to a name in use is refused, and
-- a method goes.
theorem linked_edits_knotted :
    let edits : List Edit := [.renameClass ⟨1⟩ "N", .renameClass ⟨2⟩ "C", .member (.deleteMethod ⟨4⟩)]
    let p := edits.foldl Program.carryOut (reached {} knotted).linkHierarchy
    ((reached {} knotted).ClassNamesLegal ∧ ∀ e ∈ edits, e.LegalName) ∧
      p.Linked ∧ ((p.superclass? ⟨3⟩ = some ⟨1⟩) ↔ ∃ c, p.class? ⟨1⟩ = some c ∧ ⟨3⟩ ∈ c.subclasses) ∧
      (p.class? ⟨1⟩).map (fun c => (c.name, c.subclasses.toList, c.implementers.toList)) =
        some ("N", [⟨2⟩, ⟨3⟩], [⟨2⟩]) := by
  intro edits p
  have legal := class_names_legal_of_rows (reached {} knotted) (by decide)
  have given : ∀ e ∈ edits, e.LegalName := by
    dsimp only [edits]
    decide
  obtain ⟨linked, superclasses⟩ := linked_edits {} knotted edits legal given
  exact ⟨⟨legal, given⟩, linked, superclasses ⟨3⟩ ⟨1⟩, by decide⟩

end Session

end JvmEdit
