import JvmEdit.Libraries.Standard
import JvmEdit.Proofs.Index.ClassRename
import JvmEdit.Proofs.Index.Steps
import JvmEdit.Proofs.Program.Session
set_option autoImplicit false

namespace JvmEdit

namespace Program

theorem indexed_foldl {α : Type} (f : Program → α → Program) (keeps : ∀ p x, SameNames p (f p x))
    (xs : List α) (p : Program) (indexed : p.Indexed) : (xs.foldl f p).Indexed :=
  indexed_same_names p _ (.foldl f keeps xs p) indexed

theorem indexed_rename_field (p q : Program) (id : FieldId) (new : String) (indexed : p.Indexed)
    (plain : Undotted new) (done : p.renameField id new = .ok q) : q.Indexed := by
  obtain ⟨f, found, outcome⟩ := rename_field_ok p q id new done
  rcases outcome with ⟨_, rfl⟩ | ⟨owner, _, live, free, _, _, rfl⟩
  · exact indexed
  · have relabelled := indexed_relabel_field p id f owner new indexed found live free plain
    exact indexed_same_names _ _ (same_names_update_all _ _ _) relabelled

theorem indexed_rename_method (p q : Program) (id : MethodId) (new : String) (indexed : p.Indexed)
    (plain : Undotted new) (done : p.renameMethod id new = .ok q) : q.Indexed := by
  obtain ⟨m, found, _, outcome⟩ := rename_method_ok p q id new done
  rcases outcome with ⟨_, rfl⟩ | ⟨owner, _, live, free, rfl⟩
  · exact indexed
  · have relabelled := indexed_relabel_method p id m owner new indexed found live free plain
    exact indexed_same_names _ _ (same_names_update_all _ _ _) relabelled

theorem indexed_move_field (p q : Program) (id : FieldId) (destination : ClassId)
    (indexed : p.Indexed) (done : p.moveField id destination = .ok q) : q.Indexed := by
  obtain ⟨f, owner, name, found, live, target, _, free, _, rfl⟩ :=
    move_field_ok p q id destination indexed.is_owned done
  have naming : p.fieldNaming? id = some f.naming := by rw [fieldNaming?, found]; rfl
  have detached := indexed_detach_field p id f owner indexed found live
  have placed := indexed_place_field (p.detachField id f.owner (Key.field owner f.name)) id destination
    name { f with references := .empty } detached
    (by rw [class_name?_detach_field, target])
    (by
      have gone := field_naming?_detach_field p id f.owner (Key.field owner f.name) id
      rw [if_pos rfl] at gone
      exact Option.map_eq_none_iff.mp gone)
    (find_field_key?_detach_field p id f.owner _ _ free)
    (indexed.plainField id f.naming naming)
    (indexed.freshField id (by rw [naming]; rfl))
  exact indexed_foldl _ (same_names_retarget · _ ·) _ _ placed

theorem indexed_move_method (p q : Program) (id : MethodId) (destination : ClassId)
    (indexed : p.Indexed) (done : p.moveMethod id destination = .ok q) : q.Indexed := by
  obtain ⟨m, owner, target, moved, found, live, there, _, free, movedFound, movedNaming, rfl⟩ :=
    move_method_ok p q id destination indexed.is_owned done
  have same := same_names_forget_references p id m.owner
  have forgotten := indexed_same_names p _ same indexed
  have naming : (p.forgetReferences id m.owner).methodNaming? id = some moved.naming := by
    rw [methodNaming?, movedFound]
    rfl
  have owner_eq : moved.owner = m.owner := congrArg MethodNaming.owner movedNaming
  have name_eq : moved.name = m.name := congrArg MethodNaming.name movedNaming
  have descriptor_eq : moved.descriptor = m.descriptor := congrArg MethodNaming.descriptor movedNaming
  have detached := indexed_detach_method (p.forgetReferences id m.owner) id moved owner forgotten
    movedFound (by rw [owner_eq, same.class_name, live])
  rw [owner_eq, name_eq, descriptor_eq] at detached
  have placed := indexed_place_method _ id destination target.name
    { moved with invocations := .empty } detached
    (by rw [class_name?_detach_method, same.class_name, className?, there]; rfl)
    (by
      have gone := method_naming?_detach_method (p.forgetReferences id m.owner) id m.owner
        (Key.method owner m.name m.descriptor) id
      rw [if_pos rfl] at gone
      exact Option.map_eq_none_iff.mp gone)
    (by
      change (Program.detachMethod _ id m.owner _).findMethodKey?
        (Key.method target.name moved.name moved.descriptor) = none
      rw [name_eq, descriptor_eq]
      refine find_method_key?_detach_method _ id m.owner _ _ ?_
      rw [findMethodKey?, same.index]
      exact free)
    (forgotten.plainMethod id moved.naming naming)
    (forgotten.freshMethod id (by rw [naming]; rfl))
  have key : Key.method target.name moved.name moved.descriptor =
      Key.method target.name m.name m.descriptor := by rw [name_eq, descriptor_eq]
  have placed' := (congrArg (fun k => (Program.placeMethod _ id destination k
    { moved with invocations := .empty }).Indexed) key).mp placed
  exact indexed_same_names _ _
    ((SameNames.foldl _ (same_names_retarget · _ ·) _ _).trans (same_names_resolve_method _ id)) placed'

theorem indexed_delete_field [Libraries] (p : Program) (q : Logged Program) (id : FieldId)
    (indexed : p.Indexed) (done : p.deleteField id = .ok q) : q.value.Indexed := by
  obtain ⟨f, owner, found, live, rfl⟩ := delete_field_ok p q id indexed.is_owned done
  have same := same_names_remove_instructions p f.references.toList
  have removed := indexed_same_names p _ same indexed
  have naming := same.fields id
  rw [fieldNaming?, fieldNaming?, found] at naming
  obtain ⟨left, leftFound, leftNaming⟩ := Option.map_eq_some_iff.mp naming
  have owner_eq : left.owner = f.owner := congrArg FieldNaming.owner leftNaming
  have name_eq : left.name = f.name := congrArg FieldNaming.name leftNaming
  have detached := indexed_detach_field _ id left owner removed leftFound
    (by rw [owner_eq, same.class_name, live])
  rw [owner_eq, name_eq] at detached
  exact indexed_same_names _ _ (same_names_refresh _ _) detached

theorem indexed_delete_method [Libraries] (p : Program) (q : Logged Program) (id : MethodId)
    (indexed : p.Indexed) (done : p.deleteMethod id = .ok q) : q.value.Indexed := by
  obtain ⟨m, owner, found, live, rfl⟩ := delete_method_ok p q id indexed.is_owned done
  have same := (same_names_forget_references p id m.owner).trans
    (same_names_remove_instructions _ (m.invocations.toList.filter (·.method ≠ id)))
  have removed := indexed_same_names p _ same indexed
  have naming := same.methods id
  rw [methodNaming?, methodNaming?, found] at naming
  obtain ⟨left, leftFound, leftNaming⟩ := Option.map_eq_some_iff.mp naming
  have owner_eq : left.owner = m.owner := congrArg MethodNaming.owner leftNaming
  have name_eq : left.name = m.name := congrArg MethodNaming.name leftNaming
  have descriptor_eq : left.descriptor = m.descriptor :=
    congrArg MethodNaming.descriptor leftNaming
  have detached := indexed_detach_method _ id left owner removed leftFound
    (by rw [owner_eq, same.class_name, live])
  rw [owner_eq, name_eq, descriptor_eq] at detached
  exact indexed_same_names _ _ (same_names_refresh _ _) detached

theorem indexed_delete_instructions [Libraries] (p : Program) (q : Logged (Program × Nat))
    (id : MethodId)
    (insns : List InsnId) (indexed : p.Indexed) (done : p.deleteInstructions id insns = .ok q) :
    q.value.1.Indexed := by
  obtain ⟨m, found, rfl⟩ := delete_instructions_ok p q id insns done
  have shortened := same_names_update_method p id
    (fun m' => { m' with code := (m.code.cut insns).1 }) fun _ => rfl
  have forgotten := shortened.trans
    (same_names_forget_all _ id m.owner (m.code.cut insns).2.reverse)
  exact indexed_same_names p _ (forgotten.trans (same_names_refresh _ [id])) indexed

theorem indexed_perform [Libraries] (p : Program) (e : MemberEdit) (indexed : p.Indexed)
    (plain : e.Plain) : (p.perform e).Indexed := by
  simp only [perform]
  cases done : p.edit e with
  | error _ => exact indexed
  | ok q =>
      cases e with
      | renameField id new => exact indexed_rename_field p q id new indexed plain done
      | renameMethod id new => exact indexed_rename_method p q id new indexed plain done
      | moveField id destination => exact indexed_move_field p q id destination indexed done
      | moveMethod id destination => exact indexed_move_method p q id destination indexed done
      | deleteField id =>
          obtain ⟨logged, deleted, rfl⟩ := except_map _ _ _ done
          exact indexed_delete_field p logged id indexed deleted
      | deleteMethod id =>
          obtain ⟨logged, deleted, rfl⟩ := except_map _ _ _ done
          exact indexed_delete_method p logged id indexed deleted
      | deleteInstructions id insns =>
          obtain ⟨logged, deleted, rfl⟩ := except_map _ _ _ done
          exact indexed_delete_instructions p logged id insns indexed deleted

end Program

namespace Program

-- A class that has just been given the next identity.
def enter (p : Program) (id : ClassId) (c : Class) : Program :=
  { p with index := p.index.insertClass c.name id, classes := p.classes.insert id c }

theorem class_name?_enter (p : Program) (id : ClassId) (c : Class) (other : ClassId) :
    (p.enter id c).className? other = if id = other then some c.name else p.className? other := by
  have stored := Table.get?_insert p.classes id other c
  refine (congrArg (Option.map Class.name) stored).trans ?_
  by_cases same : id = other
  · rw [if_pos same, if_pos same]
    rfl
  · rw [if_neg same, if_neg same]
    rfl

theorem class_naming?_enter (p : Program) (id : ClassId) (c : Class) (other : ClassId) :
    (p.enter id c).classNaming? other = if id = other then some c.naming else p.classNaming? other := by
  have stored := Table.get?_insert p.classes id other c
  refine (congrArg (Option.map Class.naming) stored).trans ?_
  by_cases same : id = other
  · rw [if_pos same, if_pos same]
    rfl
  · rw [if_neg same, if_neg same]
    rfl

theorem members_enter {μ : Type} (m n : Members μ) (id : ClassId) (agree : m.Agree)
    (index : n.index = m.index) (keys : ∀ i, n.key? i = m.key? i)
    (owners : ∀ i, n.owner? i = m.owner? i) (unowned : ∀ i, m.owner? i ≠ some id)
    (lists : ∀ c, n.list? c = if id = c then some [] else m.list? c) : n.Agree := by
  refine ⟨index ▸ agree.ordered, ?_, ?_, ?_⟩
  · intro key i
    rw [index, keys]
    exact agree.inverse key i
  · intro i
    rw [owners, keys]
    exact agree.owned i
  · intro c ids listed
    simp only [owners]
    rw [lists] at listed
    by_cases same : id = c
    · rw [if_pos same] at listed
      cases listed
      exact ⟨List.nodup_nil, fun i => by simpa [← same] using unowned i⟩
    · rw [if_neg same] at listed
      exact agree.listed c ids listed

-- A class that is not there yet has no members, so that no key changes when it comes in.
section Enter

variable (p : Program) (id : ClassId) (c : Class) (indexed : p.Indexed) (dead : p.className? id = none)

include indexed dead

theorem field_owner_ne (i : FieldId) (f : FieldNaming) (naming : p.fieldNaming? i = some f) :
    id ≠ f.owner := by
  obtain ⟨field, found, rfl⟩ := Option.map_eq_some_iff.mp naming
  obtain ⟨owner, live⟩ := indexed.is_owned.fields i field found
  rintro rfl
  cases live.symm.trans dead

theorem method_owner_ne (i : MethodId) (m : MethodNaming) (naming : p.methodNaming? i = some m) :
    id ≠ m.owner := by
  obtain ⟨method, found, rfl⟩ := Option.map_eq_some_iff.mp naming
  obtain ⟨owner, live⟩ := indexed.is_owned.methods i method found
  rintro rfl
  cases live.symm.trans dead

theorem field_key?_enter (i : FieldId) : (p.enter id c).fieldKey? i = p.fieldKey? i := by
  have same : (p.enter id c).fieldNaming? i = p.fieldNaming? i := rfl
  rw [field_key_eq, field_key_eq, same]
  cases naming : p.fieldNaming? i with
  | none => rfl
  | some f => simp [class_name?_enter, field_owner_ne p id indexed dead i f naming]

theorem method_key?_enter (i : MethodId) : (p.enter id c).methodKey? i = p.methodKey? i := by
  have same : (p.enter id c).methodNaming? i = p.methodNaming? i := rfl
  rw [method_key_eq, method_key_eq, same]
  cases naming : p.methodNaming? i with
  | none => rfl
  | some m => simp [class_name?_enter, method_owner_ne p id indexed dead i m naming]

end Enter

theorem indexed_enter (p : Program) (id : ClassId) (c : Class) (indexed : p.Indexed)
    (dead : p.className? id = none) (fresh : id.val < p.nextId) (free : p.findClass? c.name = none)
    (plain : Undotted c.name) (noFields : c.fields = []) (noMethods : c.methods = []) :
    (p.enter id c).Indexed := by
  refine { indexed with
    classIndex := Table.ordered_insert _ _ _ indexed.classIndex, classNames := ?_, fields := ?_
    methods := ?_, classOrder := Table.ordered_insert _ _ _ indexed.classOrder, plainClass := ?_
    freshClass := ?_ }
  · have inserted := Table.inverse_insert _ _ c.name id indexed.classNames free dead
    intro name other
    refine (inserted name other).trans ?_
    rw [class_name?_enter]
    by_cases same : other = id
    · simp [same]
    · simp [same, Ne.symm same]
  · refine members_enter _ _ id indexed.fields rfl (field_key?_enter p id c indexed dead) (fun _ => rfl) ?_ ?_
    · intro i owned
      obtain ⟨f, naming, isOwner⟩ := Option.map_eq_some_iff.mp owned
      exact field_owner_ne p id indexed dead i f naming isOwner.symm
    · intro other
      change ((p.enter id c).classNaming? other).map (·.fields) = _
      rw [class_naming?_enter]
      split
      · simp [Class.naming, noFields]
      · rfl
  · refine members_enter _ _ id indexed.methods rfl (method_key?_enter p id c indexed dead) (fun _ => rfl) ?_ ?_
    · intro i owned
      obtain ⟨m, naming, isOwner⟩ := Option.map_eq_some_iff.mp owned
      exact method_owner_ne p id indexed dead i m naming isOwner.symm
    · intro other
      change ((p.enter id c).classNaming? other).map (·.methods) = _
      rw [class_naming?_enter]
      split
      · simp [Class.naming, noMethods]
      · rfl
  · intro other n found
    rw [class_naming?_enter] at found
    split at found
    · cases found
      exact plain
    · exact indexed.plainClass other n found
  · intro other live
    rw [class_naming?_enter] at live
    split at live
    · rename_i same
      exact same ▸ fresh
    · exact indexed.freshClass other live

theorem Indexed.fresh_class_id {p : Program} (indexed : p.Indexed) : p.className? ⟨p.nextId⟩ = none := by
  cases live : p.className? ⟨p.nextId⟩ with
  | none => rfl
  | some name =>
      rw [class_name_eq] at live
      have bound := indexed.freshClass ⟨p.nextId⟩ (by
        obtain ⟨n, found, _⟩ := Option.map_eq_some_iff.mp live
        rw [found]
        rfl)
      exact absurd bound (Nat.lt_irrefl _)

theorem Indexed.fresh_field_id {p : Program} (indexed : p.Indexed) : p.field? ⟨p.nextId⟩ = none := by
  cases live : p.field? ⟨p.nextId⟩ with
  | none => rfl
  | some f =>
      have bound := indexed.freshField ⟨p.nextId⟩ (by rw [fieldNaming?, live]; rfl)
      exact absurd bound (Nat.lt_irrefl _)

theorem Indexed.fresh_method_id {p : Program} (indexed : p.Indexed) : p.method? ⟨p.nextId⟩ = none := by
  cases live : p.method? ⟨p.nextId⟩ with
  | none => rfl
  | some m =>
      have bound := indexed.freshMethod ⟨p.nextId⟩ (by rw [methodNaming?, live]; rfl)
      exact absurd bound (Nat.lt_irrefl _)

theorem indexed_attach_field (p q : Program) (owner : ClassId) (field : Field) (indexed : p.Indexed)
    (plain : Undotted field.name)
    (done : (p.advance 1).attachField owner ⟨p.nextId⟩ field = .ok q) : q.Indexed := by
  obtain ⟨name, live, only, rfl⟩ := attach_field_ok (p.advance 1) q owner ⟨p.nextId⟩ field done
  have advanced := indexed_advance p 1 indexed
  have absent : (p.advance 1).field? ⟨p.nextId⟩ = none := indexed.fresh_field_id
  have free : (p.advance 1).findFieldKey? (Key.field name field.name) = none := by
    cases found : (p.advance 1).findFieldKey? (Key.field name field.name) with
    | none => rfl
    | some other =>
        have held := (advanced.fields.inverse _ other).mp found
        rw [only other found] at held
        have keyless : (p.advance 1).fieldKey? ⟨p.nextId⟩ = none := by rw [fieldKey?, absent]; rfl
        exact absurd (keyless.symm.trans held) (by simp)
  exact indexed_place_field (p.advance 1) ⟨p.nextId⟩ owner name field advanced live absent free plain
    (Nat.lt_succ_self _)

theorem indexed_attach_method (p q : Program) (owner : ClassId) (method : Method)
    (indexed : p.Indexed) (plain : Undotted method.name)
    (done : (p.advance 1).attachMethod owner ⟨p.nextId⟩ method = .ok q) : q.Indexed := by
  obtain ⟨name, live, only, rfl⟩ := attach_method_ok (p.advance 1) q owner ⟨p.nextId⟩ method done
  have advanced := indexed_advance p 1 indexed
  have absent : (p.advance 1).method? ⟨p.nextId⟩ = none := indexed.fresh_method_id
  have free : (p.advance 1).findMethodKey?
      (Key.method name method.name method.descriptor) = none := by
    cases found : (p.advance 1).findMethodKey? (Key.method name method.name method.descriptor) with
    | none => rfl
    | some other =>
        have held := (advanced.methods.inverse _ other).mp found
        rw [only other found] at held
        have keyless : (p.advance 1).methodKey? ⟨p.nextId⟩ = none := by rw [methodKey?, absent]; rfl
        exact absurd (keyless.symm.trans held) (by simp)
  exact indexed_place_method (p.advance 1) ⟨p.nextId⟩ owner name method advanced live absent free plain
    (Nat.lt_succ_self _)

end Program

namespace Builder

theorem same_names_flush (b : Builder) : b.program.SameNames b.flush.program := by
  simp only [flush]
  split
  · exact .refl _
  · exact Program.same_names_update_method _ _ _ fun _ => rfl

theorem indexed_flush (b : Builder) (indexed : b.program.Indexed) : b.flush.program.Indexed :=
  Program.indexed_same_names _ _ (same_names_flush b) indexed

theorem enter_class_cases (b : Builder) (h : ClassHeader) :
    (b.enterClass h).program = b.program.advance 1 ∨ ∃ c : Class, c.name = h.name ∧
      b.program.findClass? c.name = none ∧ c.fields = [] ∧ c.methods = [] ∧ c.typeReferences = .empty ∧
      (b.enterClass h).program = (b.program.advance 1).enter ⟨b.program.nextId⟩ c := by
  unfold enterClass NameIndex.claimClass?
  dsimp only
  by_cases taken : (b.program.advance 1).index.classes.contains h.name
  · rw [if_pos taken]
    exact .inl rfl
  · rw [if_neg taken]
    have free : (b.program.advance 1).index.classes.get? h.name = none := by
      simpa [Table.contains] using taken
    exact .inr ⟨{
      name := h.name, superName := h.superName, interfaces := h.interfaces
      signature := h.signature, access := h.access, version := h.version
      bootstrapMethods := h.bootstrapMethods, annotations := h.annotations },
      rfl, free, rfl, rfl, rfl, rfl⟩

theorem indexed_enter_class (b : Builder) (h : ClassHeader) (indexed : b.program.Indexed)
    (plain : Undotted h.name) : (b.enterClass h).program.Indexed := by
  have advanced := Program.indexed_advance b.program 1 indexed
  rcases b.enter_class_cases h with same | ⟨c, name, free, noFields, noMethods, _, entered⟩
  · exact same ▸ advanced
  · rw [entered]
    exact Program.indexed_enter (b.program.advance 1) ⟨b.program.nextId⟩ c advanced
      indexed.fresh_class_id (Nat.lt_succ_self _) free (name ▸ plain) noFields noMethods

theorem indexed_enter_field (b : Builder) (d : FieldDecl) (indexed : b.program.Indexed)
    (plain : Undotted d.name) : (b.enterField d).program.Indexed := by
  unfold enterField
  split
  · exact indexed
  · rename_i owner _
    dsimp only
    split
    · rename_i done
      exact Program.indexed_attach_field b.program _ owner _ indexed plain done
    · exact Program.indexed_advance b.program 1 indexed

theorem indexed_enter_method (b : Builder) (d : MethodDecl) (indexed : b.program.Indexed)
    (plain : Undotted d.name) : (b.enterMethod d).program.Indexed := by
  unfold enterMethod
  split
  · exact indexed
  · rename_i owner _
    dsimp only
    split
    · rename_i done
      exact Program.indexed_attach_method b.program _ owner _ indexed plain done
    · exact Program.indexed_advance b.program 1 indexed

theorem indexed_step (b : Builder) (event : ClassEvent) (indexed : b.program.Indexed)
    (plain : event.Plain) : (b.step event).program.Indexed := by
  cases event with
  | header h => exact indexed_enter_class b.flush h (indexed_flush b indexed) plain
  | field d => exact indexed_enter_field b d indexed plain
  | method d => exact indexed_enter_method _ d (indexed_flush b indexed) plain
  | newLabel => exact Program.indexed_advance b.program 2 indexed
  | instruction opcode operand =>
      change (b.addInstruction opcode operand).program.Indexed
      simp only [addInstruction]
      split
      · exact indexed
      · exact Program.indexed_advance b.program 1 indexed
  | tryRange d =>
      change (b.addTryRange d).program.Indexed
      simp only [addTryRange]
      split <;> exact indexed
  | localVariable d =>
      change (b.addLocal d).program.Indexed
      simp only [addLocal]
      split <;> exact indexed
  | methodEnd maxStack maxLocals =>
      change (b.endMethod maxStack maxLocals).program.Indexed
      simp only [endMethod]
      split
      · exact indexed
      · refine indexed_flush _ (Program.indexed_same_names _ _ ?_ indexed)
        exact Program.same_names_update_method _ _ _ fun _ => rfl
  | classEnd => exact indexed_flush b indexed

end Builder

namespace Session

theorem indexed_act [Libraries] (s : Session) (action : SessionAction) (indexed : s.program.Indexed)
    (plain : action.Plain) : (s.act action).program.Indexed := by
  cases action with
  | openBuilder => exact indexed
  | visit builder event =>
      change (s.visit builder event).program.Indexed
      simp only [visit]
      split
      · exact indexed
      · exact Builder.indexed_step _ event indexed plain
  | renameClass id new =>
      dsimp only [act]
      split
      · rename_i q done
        exact Program.indexed_rename_class s.program q id new indexed plain done
      · exact indexed
  | edit e => exact Program.indexed_perform s.program e indexed plain
  | clear => exact Program.indexed_empty _ rfl rfl rfl rfl

theorem indexed_run [Libraries] (s : Session) (actions : List SessionAction)
    (indexed : s.program.Indexed)
    (plain : ∀ action ∈ actions, action.Plain) : (s.run actions).program.Indexed := by
  induction actions generalizing s with
  | nil => exact indexed
  | cons action actions ih =>
      have stepped := indexed_act s action indexed (plain action List.mem_cons_self)
      exact ih (s.act action) stepped fun later member => plain later (List.mem_cons_of_mem _ member)

theorem indexed_start (settings : Settings) : (start settings).program.Indexed :=
  Program.indexed_empty _ rfl rfl rfl rfl

-- Whatever happens in a session, its index is exact.
theorem index_exact_run [Libraries] (settings : Settings) (actions : List SessionAction)
    (plain : ∀ action ∈ actions, action.Plain) : ((start settings).run actions).program.IndexExact :=
  Program.index_exact_of_indexed _ (indexed_run _ actions (indexed_start settings) plain)

-- Two builders take turns; a class is renamed and a field moved while both are open.
def interleaved : List SessionAction :=
  let header (name : String) : ClassEvent := .header ⟨name, none, [], none, default, 52, [], []⟩
  [.openBuilder, .openBuilder, .visit 0 (header "A"), .visit 1 (header "B"),
    .visit 0 (.field ⟨"x", "I", none, default, none, []⟩), .visit 1 (.field ⟨"y", "I", none, default, none, []⟩),
    .renameClass ⟨1⟩ "C", .visit 0 (.method ⟨"m", "()V", none, default, [], []⟩), .visit 1 (header "A"),
    .edit (.moveField ⟨4⟩ ⟨1⟩), .edit (.renameMethod ⟨5⟩ "n"), .visit 0 .classEnd]

theorem index_exact_run_interleaved : (∀ action ∈ interleaved, action.Plain) ∧
    ((start {}).run interleaved).program.IndexExact :=
  ⟨by decide, index_exact_run {} interleaved (by decide)⟩

end Session

end JvmEdit
