import JvmEdit.Libraries.Standard
import JvmEdit.Proofs.Program.Loading
import JvmEdit.Proofs.References.Edits
set_option autoImplicit false

namespace JvmEdit

-- The names that an instruction carries have no dot.
def ClassEvent.PlainOperand : ClassEvent → Prop
  | .instruction _ operand => operand.Plain
  | _ => True

instance ClassEvent.decidablePlainOperand : (event : ClassEvent) → Decidable event.PlainOperand
  | .instruction _ operand => inferInstanceAs (Decidable operand.Plain)
  | .header _ | .field _ | .method _ | .newLabel | .tryRange _ | .localVariable _ | .methodEnd ..
  | .classEnd => inferInstanceAs (Decidable True)

-- An action that only loads classes, from a stream without dots in names.
def SessionAction.PlainLoad : SessionAction → Prop
  | .openBuilder => True
  | .visit _ event => event.Plain ∧ event.PlainOperand
  | _ => False

instance SessionAction.decidablePlainLoad : (action : SessionAction) → Decidable action.PlainLoad
  | .visit _ event => inferInstanceAs (Decidable (event.Plain ∧ event.PlainOperand))
  | .openBuilder => inferInstanceAs (Decidable True)
  | .renameClass .. | .edit _ | .clear => inferInstanceAs (Decidable False)

namespace PendingBody

-- The body holds distinct instructions, all of them made before the counter stood at `bound`.
structure Fits (body : PendingBody) (bound : Nat) : Prop where
  unique : (body.code.map (·.id)).Nodup
  below : ∀ i ∈ body.code, i.id.val < bound
  plain : ∀ i ∈ body.code, i.operand.Plain

theorem fits_empty (bound : Nat) : PendingBody.Fits {} bound :=
  ⟨List.nodup_nil, fun _ member => (List.not_mem_nil member).elim,
    fun _ member => (List.not_mem_nil member).elim⟩

theorem Fits.mono {body : PendingBody} {bound later : Nat} (fits : body.Fits bound)
    (grown : bound ≤ later) : body.Fits later :=
  { fits with below := fun i member => Nat.lt_of_lt_of_le (fits.below i member) grown }

end PendingBody

namespace Program

def Unbound (p : Program) : Prop := ∀ target ref, ¬p.Holds target ref

theorem unbound_of_records (p q : Program) (unbound : p.Unbound)
    (same : ∀ target, q.records target = p.records target ∨ q.records target = .empty) :
    q.Unbound := by
  intro target ref held
  rw [Holds] at held
  rcases same target with kept | emptied
  · rw [kept] at held
    exact unbound target ref held
  · rw [emptied] at held
    exact OrderedSet.not_mem_empty ref held

theorem sound_of_unbound (p : Program) (unbound : p.Unbound) : p.Sound :=
  fun target ref held => absurd held (unbound target ref)

theorem coded_body (p : Program) (id : MethodId) (f : Method → Method) (coded : p.Coded)
    (fits : ∀ m, (f m).code.Fits) : (p.updateMethod id f).Coded := by
  intro other m found
  rw [method?_update_method] at found
  by_cases same : id = other
  · rw [if_pos same] at found
    obtain ⟨before, _, rfl⟩ := Option.map_eq_some_iff.mp found
    exact fits before
  · rw [if_neg same] at found
    exact coded other m found

theorem unbound_load_step {fits : Stream → Prop} (p q : Program) (step : LoadStep fits p q)
    (unbound : p.Unbound) : q.Unbound := by
  refine unbound_of_records p q unbound fun target => ?_
  cases step with
  | advance => exact Or.inl (by cases target <;> rfl)
  | enter c free fields methods unread =>
      cases target with
      | field _ => exact Or.inl rfl
      | method _ => exact Or.inl rfl
      | «class» id =>
          rw [records, class?, enter, Table.get?_insert]
          split
          · exact Or.inr unread
          · exact Or.inl rfl
  | placeField owner name f live only unread =>
      rw [records_place_field]
      split
      · exact Or.inr unread
      · exact Or.inl (by cases target <;> rfl)
  | placeMethod owner name m live only code locals unread =>
      rw [records_place_method]
      split
      · exact Or.inr unread
      · exact Or.inl (by cases target <;> rfl)
  | fill id =>
      refine Or.inl (records_update_method p id _ ?_ target)
      intro m
      rfl
  | limit id =>
      refine Or.inl (records_update_method p id _ ?_ target)
      intro m
      rfl

theorem coded_load_step (p q : Program) (step : LoadStep Stream.Fits p q) (coded : p.Coded) :
    q.Coded := by
  cases step with
  | advance => exact coded
  | enter => exact coded
  | placeField => exact coded
  | placeMethod owner name m live only code =>
      exact coded_place_method _ _ owner _ m coded (code ▸ Stream.fits_empty)
  | fill id code tryRanges locals fitting => exact coded_body p id _ coded fun _ => fitting
  | limit id =>
      refine (same_sites_update_method p id _ ?_).coded coded
      exact fun _ => ⟨rfl, rfl⟩

theorem sound_resolve_all (p : Program) (sound : p.Sound) (coded : p.Coded) :
    p.resolveAll.1.Sound ∧ p.resolveAll.1.Coded := by
  rw [resolve_all_program]
  generalize p.methodIds = ids
  induction ids generalizing p with
  | nil => exact ⟨sound, coded⟩
  | cons id ids ih =>
      have bound := sound_resolve_method p id sound coded
      exact ih _ bound.1 bound.2

theorem stale_nil (p : Program) (sound : p.Sound) (target : Target) (refs : OrderedSet InsnRef)
    (recorded : p.records target = refs) : p.stale target refs = [] := by
  refine List.filter_eq_nil_iff.mpr fun ref member => ?_
  have held : p.Holds target ref := by
    rw [Holds, recorded]
    exact (OrderedSet.mem_to_list _ _).mp member
  simp [sound target ref held]

theorem violations_nil (p : Program) (exact : p.IndexExact) (sound : p.Sound) :
    p.violations = [] := by
  rw [violations, List.append_eq_nil_iff, List.append_eq_nil_iff]
  refine ⟨⟨?_, ?_⟩, ?_⟩
  · refine List.flatMap_eq_nil_iff.mpr fun id member => ?_
    obtain ⟨c, found⟩ := (Table.mem_keys_iff _ _).mp member
    have live : p.class? id = some c := found
    have fresh := stale_nil p sound (.class id) c.typeReferences (by rw [records, live]; rfl)
    simp only [classViolations, live, exact.classKeys id c live, fresh]
    rfl
  · refine List.flatMap_eq_nil_iff.mpr fun id member => ?_
    obtain ⟨f, found⟩ := (Table.mem_keys_iff _ _).mp member
    have live : p.field? id = some f := found
    obtain ⟨owner, ownerLive, keys⟩ := exact.fieldKeys id f live
    have key : p.fieldKey? id = some (Key.field owner.name f.name) := by
      simp [fieldKey?, live, className?, ownerLive]
    have fresh := stale_nil p sound (.field id) f.references (by rw [records, live]; rfl)
    simp only [fieldViolations, live, key, keys, fresh]
    rfl
  · refine List.flatMap_eq_nil_iff.mpr fun id member => ?_
    obtain ⟨m, found⟩ := (Table.mem_keys_iff _ _).mp member
    have live : p.method? id = some m := found
    obtain ⟨owner, ownerLive, keys⟩ := exact.methodKeys id m live
    have key : p.methodKey? id = some (Key.method owner.name m.name m.descriptor) := by
      simp [methodKey?, live, className?, ownerLive]
    have fresh := stale_nil p sound (.method id) m.invocations (by rw [records, live]; rfl)
    simp only [methodViolations, live, key, keys, fresh]
    rfl

end Program

namespace Builder

-- What holds of a builder and its program as long as classes are only loaded.
structure Loading (b : Builder) : Prop where
  unbound : b.program.Unbound
  coded : b.program.Coded
  body : b.body.Fits b.program.nextId

theorem next_id_flush (b : Builder) : b.flush.program.nextId = b.program.nextId := by
  simp only [flush]
  split <;> rfl

theorem next_id_step (b : Builder) (event : ClassEvent) :
    b.program.nextId ≤ (b.step event).program.nextId := by
  have grown : ∀ p : Program, p.nextId ≤ (p.advance 1).nextId := fun _ => Nat.le_add_right _ _
  cases event with
  | header h =>
      change _ ≤ (b.flush.enterClass h).program.nextId
      rw [← next_id_flush b]
      unfold enterClass
      dsimp only
      split <;> exact grown _
  | field d =>
      change _ ≤ (b.enterField d).program.nextId
      unfold enterField
      split
      · exact Nat.le_refl _
      · dsimp only
        split
        · rename_i done
          obtain ⟨_, _, _, rfl⟩ := Program.attach_field_ok _ _ _ _ _ done
          exact grown _
        · exact grown _
  | method d =>
      change _ ≤ (Builder.enterMethod _ d).program.nextId
      rw [← next_id_flush b]
      unfold enterMethod
      split
      · exact Nat.le_refl _
      · dsimp only
        split
        · rename_i done
          obtain ⟨_, _, _, rfl⟩ := Program.attach_method_ok _ _ _ _ _ done
          exact grown _
        · exact grown _
  | newLabel => exact Nat.le_add_right _ _
  | instruction opcode operand =>
      change _ ≤ (b.addInstruction opcode operand).program.nextId
      simp only [addInstruction]
      split
      · exact Nat.le_refl _
      · exact grown _
  | tryRange d =>
      change _ ≤ (b.addTryRange d).program.nextId
      simp only [addTryRange]
      split <;> exact Nat.le_refl _
  | localVariable d =>
      change _ ≤ (b.addLocal d).program.nextId
      simp only [addLocal]
      split <;> exact Nat.le_refl _
  | methodEnd maxStack maxLocals =>
      change _ ≤ (b.endMethod maxStack maxLocals).program.nextId
      simp only [endMethod]
      split
      · exact Nat.le_refl _
      · rw [next_id_flush]
        exact Nat.le_refl _
  | classEnd => exact Nat.le_of_eq (next_id_flush b).symm

theorem fits_reversed (body : PendingBody) (bound : Nat) (fits : body.Fits bound) :
    Stream.Fits ⟨body.code.reverse⟩ where
  unique := by
    change (body.code.reverse.map (·.id)).Nodup
    rw [List.map_reverse]
    exact List.nodup_reverse.mpr fits.unique
  plain := fun i member => fits.plain i (List.mem_reverse.mp member)

theorem body_flush (b : Builder) : b.flush.body = b.body ∨ b.flush.body = {} := by
  simp only [flush]
  split
  · exact Or.inl rfl
  · exact Or.inr rfl

theorem body_enter_class (b : Builder) (h : ClassHeader) : (b.enterClass h).body = b.body := by
  unfold enterClass
  dsimp only
  split <;> rfl

theorem body_enter_field (b : Builder) (d : FieldDecl) : (b.enterField d).body = b.body := by
  unfold enterField
  split
  · rfl
  · dsimp only
    split <;> rfl

theorem body_enter_method (b : Builder) (d : MethodDecl) : (b.enterMethod d).body = b.body := by
  unfold enterMethod
  split
  · rfl
  · dsimp only
    split <;> rfl

theorem fits_flush (b : Builder) (bound : Nat) (fits : b.body.Fits bound) : b.flush.body.Fits bound := by
  rcases body_flush b with kept | emptied
  · rw [kept]
    exact fits
  · rw [emptied]
    exact PendingBody.fits_empty bound

theorem fits_add_instruction (b : Builder) (opcode : Opcode) (operand : Operand)
    (fits : b.body.Fits b.program.nextId) (plain : operand.Plain) :
    (b.addInstruction opcode operand).body.Fits (b.addInstruction opcode operand).program.nextId := by
  have later := fits.mono (Nat.le_add_right b.program.nextId 1)
  simp only [addInstruction]
  split
  · exact fits
  · refine ⟨?_, ?_, ?_⟩
    · refine List.nodup_cons.mpr ⟨?_, fits.unique⟩
      intro member
      obtain ⟨i, inBody, same⟩ := List.mem_map.mp member
      have below := fits.below i inBody
      rw [same] at below
      exact Nat.lt_irrefl _ below
    · intro i member
      rcases List.mem_cons.mp member with atHead | earlier
      · rw [atHead]
        exact Nat.lt_succ_self _
      · exact later.below i earlier
    · intro i member
      rcases List.mem_cons.mp member with atHead | earlier
      · rw [atHead]
        exact Operand.plain_map_labels _ operand plain
      · exact fits.plain i earlier

theorem fits_step (b : Builder) (event : ClassEvent) (fits : b.body.Fits b.program.nextId)
    (plain : event.PlainOperand) : (b.step event).body.Fits (b.step event).program.nextId := by
  have later := fits.mono (next_id_step b event)
  cases event with
  | header h =>
      change (b.flush.enterClass h).body.Fits _
      rw [body_enter_class]
      exact fits_flush b _ later
  | field d =>
      change (b.enterField d).body.Fits _
      rw [body_enter_field]
      exact later
  | method d =>
      change (enterMethod { b.flush with labels := #[] } d).body.Fits _
      rw [body_enter_method]
      exact fits_flush b _ later
  | newLabel => exact later
  | instruction opcode operand => exact fits_add_instruction b opcode operand fits plain
  | tryRange d =>
      change (b.addTryRange d).body.Fits (b.addTryRange d).program.nextId
      simp only [addTryRange]
      split
      · exact fits
      · exact ⟨fits.unique, fits.below, fits.plain⟩
  | localVariable d =>
      change (b.addLocal d).body.Fits (b.addLocal d).program.nextId
      simp only [addLocal]
      split
      · exact fits
      · exact ⟨fits.unique, fits.below, fits.plain⟩
  | methodEnd maxStack maxLocals =>
      change (b.endMethod maxStack maxLocals).body.Fits (b.endMethod maxStack maxLocals).program.nextId
      simp only [endMethod]
      split
      · exact fits
      · refine fits_flush _ _ ?_
        rw [next_id_flush]
        exact fits
  | classEnd => exact fits_flush b _ later

theorem loading_step (b : Builder) (event : ClassEvent) (loading : b.Loading)
    (plain : event.PlainOperand) : (b.step event).Loading where
  unbound := step_induct (fun _ => True) _ Program.unbound_load_step b event trivial loading.unbound
  coded := step_induct Stream.Fits _ Program.coded_load_step b event (fits_reversed _ _ loading.body)
    loading.coded
  body := fits_step b event loading.body plain

end Builder

namespace Session

-- Nothing is recorded yet, and every builder gathers a body of its own.
structure Loading (s : Session) : Prop where
  unbound : s.program.Unbound
  coded : s.program.Coded
  bodies : ∀ b ∈ s.builders, b.body.Fits s.program.nextId

theorem loading_act [Libraries] (s : Session) (action : SessionAction) (loading : s.Loading)
    (plain : action.PlainLoad) : (s.act action).Loading := by
  cases action with
  | openBuilder =>
      refine ⟨loading.unbound, loading.coded, ?_⟩
      intro b member
      rcases List.mem_append.mp member with earlier | isNew
      · exact loading.bodies b earlier
      · cases List.mem_singleton.mp isNew
        exact PendingBody.fits_empty _
  | visit builder event =>
      change (s.visit builder event).Loading
      simp only [visit]
      split
      · exact loading
      · rename_i b found
        have member := List.mem_of_getElem? found
        have stepped := Builder.loading_step { b with program := s.program } event
          ⟨loading.unbound, loading.coded, loading.bodies b member⟩ plain.2
        have grown := Builder.next_id_step { b with program := s.program } event
        refine ⟨stepped.unbound, stepped.coded, ?_⟩
        intro other otherMember
        rcases List.mem_or_eq_of_mem_set otherMember with earlier | isStepped
        · exact (loading.bodies other earlier).mono grown
        · rw [isStepped]
          exact stepped.body
  | renameClass _ _ => exact absurd plain id
  | edit _ => exact absurd plain id
  | clear => exact absurd plain id

theorem loading_run [Libraries] (s : Session) (actions : List SessionAction) (loading : s.Loading)
    (plain : ∀ action ∈ actions, action.PlainLoad) : (s.run actions).Loading := by
  induction actions generalizing s with
  | nil => exact loading
  | cons action actions ih =>
      have stepped := loading_act s action loading (plain action List.mem_cons_self)
      exact ih (s.act action) stepped fun later member => plain later (List.mem_cons_of_mem _ member)

theorem loading_start (settings : Settings) : (start settings).Loading where
  unbound := by
    intro target ref held
    cases target <;> exact OrderedSet.not_mem_empty ref held
  coded := fun _ _ found => by cases found
  bodies := fun _ member => by cases member

theorem plain_of_plain_load (action : SessionAction) (plain : action.PlainLoad) : action.Plain := by
  cases action with
  | openBuilder => trivial
  | visit _ _ => exact plain.1
  | renameClass _ _ => exact absurd plain id
  | edit _ => exact absurd plain id
  | clear => exact absurd plain id

-- A program as it is once its classes are loaded and its instructions bound.
def resolved [Libraries] (settings : Settings) (loads : List SessionAction) : Program :=
  ((start settings).run loads).program.resolveAll.1

theorem bound_resolved [Libraries] (settings : Settings) (loads : List SessionAction)
    (plain : ∀ action ∈ loads, action.PlainLoad) : (resolved settings loads).Bound := by
  have loading := loading_run _ loads (loading_start settings) plain
  have indexed := indexed_run _ loads (indexed_start settings) fun action member =>
    plain_of_plain_load action (plain action member)
  have bound := Program.sound_resolve_all _ (Program.sound_of_unbound _ loading.unbound) loading.coded
  exact ⟨Program.indexed_same_names _ _ (Program.same_names_resolve_all _) indexed, bound.1, bound.2⟩

theorem bound_edits [Libraries] (p : Program) (edits : List MemberEdit) (bound : p.Bound)
    (plain : ∀ e ∈ edits, e.Plain) : (edits.foldl Program.perform p).Bound := by
  induction edits generalizing p with
  | nil => exact bound
  | cons e edits ih =>
      have performed := Program.bound_perform p e bound (plain e List.mem_cons_self)
      exact ih (p.perform e) performed fun later member => plain later (List.mem_cons_of_mem _ member)

-- After any run of member edits, every recorded instruction stands in a live method and names,
-- from there, exactly the entity that records it.
theorem references_sound [Libraries] (settings : Settings) (loads : List SessionAction)
    (edits : List MemberEdit)
    (plainLoads : ∀ action ∈ loads, action.PlainLoad) (plainEdits : ∀ e ∈ edits, e.Plain) :
    let p := edits.foldl Program.perform (resolved settings loads)
    (∀ target, ∀ ref ∈ p.records target, ∃ m i, p.method? ref.method = some m ∧
      m.code.get? ref.insn = some i ∧ p.lookup? (some m.owner) i.operand = some target) ∧
    p.violations = [] := by
  intro p
  have bound : p.Bound := bound_edits _ edits (bound_resolved settings loads plainLoads) plainEdits
  refine ⟨?_, Program.violations_nil p (Program.index_exact_of_indexed p bound.indexed) bound.sound⟩
  intro target ref held
  obtain ⟨m, live, rest⟩ := Option.bind_eq_some_iff.mp (bound.sound target ref held)
  obtain ⟨i, found, named⟩ := Option.bind_eq_some_iff.mp rest
  exact ⟨m, i, live, found, named⟩

-- A class with a field and a method, and a subclass whose code reaches both.
def baseAndChild : List SessionAction :=
  let header (name : String) (superName : Option String) : ClassEvent :=
    .header ⟨name, superName, [], none, default, 52, [], []⟩
  [.openBuilder, .visit 0 (header "Base" none),
    .visit 0 (.field ⟨"n", "I", none, default, none, []⟩),
    .visit 0 (.method ⟨"m", "()V", none, default, [], []⟩),
    .visit 0 (header "Child" (some "Base")),
    .visit 0 (.method ⟨"run", "()V", none, default, [], []⟩),
    .visit 0 (.instruction 180 (.field ⟨"Child", "n", "I", .read, false⟩)),
    .visit 0 (.instruction 182 (.call ⟨"Base", "m", "()V", false, .virtual⟩)),
    .visit 0 (.instruction 187 (.type "Base")), .visit 0 .classEnd]

-- The inherited field is renamed, the called method moved to the subclass, the caller to the base
-- class, and then the field is deleted with the instruction that reads it.
def shuffle : List MemberEdit :=
  [.renameField ⟨2⟩ "count", .moveMethod ⟨3⟩ ⟨4⟩, .moveMethod ⟨5⟩ ⟨1⟩, .renameMethod ⟨3⟩ "call",
    .deleteField ⟨2⟩, .deleteInstructions ⟨5⟩ [⟨8⟩]]

theorem references_sound_shuffle : (∀ action ∈ baseAndChild, action.PlainLoad) ∧
    (∀ e ∈ shuffle, e.Plain) ∧
    (shuffle.foldl Program.perform (resolved {} baseAndChild)).violations = [] :=
  ⟨by decide, by decide, (references_sound {} baseAndChild shuffle (by decide) (by decide)).2⟩

end Session

end JvmEdit
