import JvmEdit.Libraries.Standard
import JvmEdit.Proofs.References.Resolution
set_option autoImplicit false

namespace JvmEdit

namespace Program

-- A program into which classes have been loaded and of which nothing is bound yet.
structure JustLoaded (p : Program) : Prop where
  rows : p.RowsLive
  unbound : p.Unbound
  classes : p.classes.Ordered
  fields : p.fields.Ordered
  methods : p.methods.Ordered

namespace JustLoaded

variable {p : Program}

theorem records (loaded : p.JustLoaded) (target : Target) : p.records target = .empty := by
  have none : ∀ ref, ref ∉ (p.records target).falling := loaded.unbound target
  exact congrArg OrderedSet.mk (List.eq_nil_iff_forall_not_mem.mpr none)

theorem bare (loaded : p.JustLoaded) : p.bare = p := by
  have classes : p.classes.mapValues Class.bare = p.classes := by
    refine Table.map_values_same _ loaded.classes _ fun id c live => ?_
    have none := loaded.records (.class id)
    rw [Program.records, class?, live] at none
    exact congrArg (fun refs => { c with typeReferences := refs }) none.symm
  have fields : p.fields.mapValues Field.bare = p.fields := by
    refine Table.map_values_same _ loaded.fields _ fun id f live => ?_
    have none := loaded.records (.field id)
    rw [Program.records, field?, live] at none
    exact congrArg (fun refs => { f with references := refs }) none.symm
  have methods : p.methods.mapValues Method.bare = p.methods := by
    refine Table.map_values_same _ loaded.methods _ fun id m live => ?_
    have none := loaded.records (.method id)
    rw [Program.records, method?, live] at none
    exact congrArg (fun refs => { m with invocations := refs }) none.symm
  rw [Program.bare, classes, fields, methods]

theorem resolve_each (loaded : p.JustLoaded) (order : List MethodId)
    (covers : ∀ id ∈ p.methodIds, id ∈ order) :
    (∀ target ref, (p.resolveEach order).Holds target ref ↔ p.Names target ref) ∧
      (p.resolveEach order).bare = p ∧ p.resolveEach order = p.resolveAll.1 := by
  have held : ∀ order : List MethodId, (∀ id ∈ p.methodIds, id ∈ order) →
      ∀ target ref, (p.resolveEach order).Holds target ref ↔ p.Names target ref := by
    intro order covers target ref
    rw [holds_resolve_each p order loaded.rows, or_iff_right (loaded.unbound target ref)]
    refine ⟨fun both => both.2, fun named => ⟨covers _ ?_, named⟩⟩
    obtain ⟨m, _, live, _⟩ := named
    exact (Table.mem_keys_iff _ _).mpr ⟨m, live⟩
  have sorted : p.RecordsSorted := fun target => loaded.records target ▸ OrderedSet.sorted_empty
  have everyId := resolve_each_frame p p.methodIds
  have frame := resolve_each_frame p order
  refine ⟨held order covers, frame.1.trans loaded.bare, ?_⟩
  rw [resolve_all_eq_resolve_each]
  apply eq_of_records _ _ (frame.1.trans everyId.1.symm)
  · exact (congrArg (List.Pairwise (· < ·)) everyId.2.classIds).mpr loaded.classes
  · exact (congrArg (List.Pairwise (· < ·)) everyId.2.fieldIds).mpr loaded.fields
  · exact (congrArg (List.Pairwise (· < ·)) everyId.2.methodIds).mpr loaded.methods
  · intro target
    apply OrderedSet.eq_of_mem_iff
    · exact records_sorted_resolve_each p order loaded.rows sorted target
    · exact records_sorted_resolve_each p p.methodIds loaded.rows sorted target
    · intro ref
      exact (held order covers target ref).trans (held p.methodIds (fun _ member => member) target ref).symm

end JustLoaded

section Loading

variable (p q : Program)

theorem rows_live_grown (rows : p.RowsLive) (alive : ∀ target, p.Live target → q.Live target)
    (classes : ∀ name c, q.findClass? name = some c → p.findClass? name = some c ∨ q.Live (.class c))
    (fields : ∀ key f, q.findFieldKey? key = some f → p.findFieldKey? key = some f ∨ q.Live (.field f))
    (methods : ∀ key m, q.findMethodKey? key = some m →
      p.findMethodKey? key = some m ∨ q.Live (.method m)) : q.RowsLive where
  classes name c found := (classes name c found).elim (fun old => alive _ (rows.classes name c old)) id
  fields key f found := (fields key f found).elim (fun old => alive _ (rows.fields key f old)) id
  methods key m found := (methods key m found).elim (fun old => alive _ (rows.methods key m old)) id

theorem rows_live_enter (id : ClassId) (c : Class) (rows : p.RowsLive) : (p.enter id c).RowsLive := by
  have own : (p.enter id c).Live (.class id) := by
    rw [Live, class_naming?_enter, if_pos rfl]
    rfl
  refine rows_live_grown p _ rows ?_ ?_ (fun _ _ => Or.inl) (fun _ _ => Or.inl)
  · intro target live
    cases target with
    | «class» other =>
        rw [Live, class_naming?_enter]
        split
        · rfl
        · exact live
    | field _ => exact live
    | method _ => exact live
  · intro name other found
    have row : (p.enter id c).findClass? name = if c.name = name then some id else p.findClass? name :=
      Table.get?_insert p.index.classes c.name name id
    rw [row] at found
    split at found
    · cases found
      exact Or.inr own
    · exact Or.inl found

theorem live_relists {owner : ClassId} {f : ClassNaming → ClassNaming} (relists : p.Relists q owner f)
    (id : ClassId) (live : p.Live (.class id)) : q.Live (.class id) := by
  rw [Live, relists.naming]
  split
  · rw [Option.isSome_map]
    exact live
  · exact live

theorem rows_live_place_field (id : FieldId) (owner : ClassId) (key : String) (f : Field)
    (rows : p.RowsLive) : (p.placeField id owner key f).RowsLive := by
  have own : (p.placeField id owner key f).Live (.field id) := by
    rw [Live, field_naming?_place_field, if_pos rfl]
    rfl
  refine rows_live_grown p _ rows ?_ (fun _ _ => Or.inl) ?_ (fun _ _ => Or.inl)
  · intro target live
    cases target with
    | «class» other => exact live_relists p _ (relists_place_field p id owner key f) other live
    | field other =>
        rw [Live, field_naming?_place_field]
        split
        · rfl
        · exact live
    | method _ => exact live
  · intro other id' found
    rw [find_field_key?_place] at found
    split at found
    · cases found
      exact Or.inr own
    · exact Or.inl found

theorem rows_live_place_method (id : MethodId) (owner : ClassId) (key : String) (m : Method)
    (rows : p.RowsLive) : (p.placeMethod id owner key m).RowsLive := by
  have own : (p.placeMethod id owner key m).Live (.method id) := by
    rw [Live, method_naming?_place_method, if_pos rfl]
    rfl
  refine rows_live_grown p _ rows ?_ (fun _ _ => Or.inl) (fun _ _ => Or.inl) ?_
  · intro target live
    cases target with
    | «class» other => exact live_relists p _ (relists_place_method p id owner key m) other live
    | field _ => exact live
    | method other =>
        rw [Live, method_naming?_place_method]
        split
        · rfl
        · exact live
  · intro other id' found
    rw [find_method_key?_place] at found
    split at found
    · cases found
      exact Or.inr own
    · exact Or.inl found

theorem rows_live_load_step {fits : Stream → Prop} (step : LoadStep fits p q) (rows : p.RowsLive) :
    q.RowsLive := by
  have advanced : (p.advance 1).RowsLive := ⟨rows.classes, rows.fields, rows.methods⟩
  cases step with
  | advance => exact ⟨rows.classes, rows.fields, rows.methods⟩
  | enter c => exact rows_live_enter (p.advance 1) _ c advanced
  | placeField owner name f => exact rows_live_place_field (p.advance 1) _ owner _ f advanced
  | placeMethod owner name m => exact rows_live_place_method (p.advance 1) _ owner _ m advanced
  | fill id =>
      refine rows_live_same_names p _ (same_names_update_method p id _ ?_) rows
      exact fun _ => rfl
  | limit id =>
      refine rows_live_same_names p _ (same_names_update_method p id _ ?_) rows
      exact fun _ => rfl

theorem just_loaded_load_step {fits : Stream → Prop} (step : LoadStep fits p q)
    (loaded : p.JustLoaded) : q.JustLoaded := by
  have rows := rows_live_load_step p q step loaded.rows
  have unbound := unbound_load_step p q step loaded.unbound
  cases step with
  | advance => exact ⟨rows, unbound, loaded.classes, loaded.fields, loaded.methods⟩
  | enter c =>
      exact ⟨rows, unbound, Table.ordered_insert _ _ _ loaded.classes, loaded.fields, loaded.methods⟩
  | placeField owner name f =>
      exact ⟨rows, unbound, Table.ordered_modify _ _ _ loaded.classes,
        Table.ordered_insert _ _ _ loaded.fields, loaded.methods⟩
  | placeMethod owner name m =>
      exact ⟨rows, unbound, Table.ordered_modify _ _ _ loaded.classes, loaded.fields,
        Table.ordered_insert _ _ _ loaded.methods⟩
  | fill id =>
      exact ⟨rows, unbound, loaded.classes, loaded.fields, Table.ordered_modify _ _ _ loaded.methods⟩
  | limit id =>
      exact ⟨rows, unbound, loaded.classes, loaded.fields, Table.ordered_modify _ _ _ loaded.methods⟩

theorem just_loaded_empty (index : p.index = .empty) (classes : p.classes = .empty)
    (fields : p.fields = .empty) (methods : p.methods = .empty) : p.JustLoaded := by
  obtain ⟨settings, nextId, _, _, _, _⟩ := p
  subst index classes fields methods
  refine ⟨⟨?_, ?_, ?_⟩, ?_, Table.ordered_empty, Table.ordered_empty, Table.ordered_empty⟩
  · exact fun _ _ found => by cases found
  · exact fun _ _ found => by cases found
  · exact fun _ _ found => by cases found
  · intro target ref held
    cases target <;> exact OrderedSet.not_mem_empty ref held

end Loading

end Program

-- An action that loads classes, or drops everything before more is loaded.
def SessionAction.IsLoad : SessionAction → Prop
  | .openBuilder | .visit .. | .clear => True
  | .renameClass .. | .edit _ => False

instance SessionAction.decidableIsLoad : (action : SessionAction) → Decidable action.IsLoad
  | .openBuilder | .visit .. | .clear => inferInstanceAs (Decidable True)
  | .renameClass .. | .edit _ => inferInstanceAs (Decidable False)

namespace Session

theorem just_loaded_act [Libraries] (s : Session) (action : SessionAction) (loads : action.IsLoad)
    (loaded : s.program.JustLoaded) : (s.act action).program.JustLoaded := by
  cases action with
  | openBuilder => exact loaded
  | visit builder event =>
      change (s.visit builder event).program.JustLoaded
      simp only [visit]
      split
      · exact loaded
      · exact Builder.step_induct (fun _ => True) _ (fun p q step => Program.just_loaded_load_step p q step)
          _ event trivial loaded
  | clear => exact Program.just_loaded_empty _ rfl rfl rfl rfl
  | renameClass _ _ => exact absurd loads id
  | edit _ => exact absurd loads id

theorem just_loaded_run [Libraries] (s : Session) (actions : List SessionAction)
    (loads : ∀ action ∈ actions, action.IsLoad) (loaded : s.program.JustLoaded) :
    (s.run actions).program.JustLoaded := by
  induction actions generalizing s with
  | nil => exact loaded
  | cons action actions ih =>
      have stepped := just_loaded_act s action (loads action List.mem_cons_self) loaded
      exact ih (s.act action) (fun later member => loads later (List.mem_cons_of_mem _ member)) stepped

theorem just_loaded_start (settings : Settings) : (start settings).program.JustLoaded :=
  Program.just_loaded_empty _ rfl rfl rfl rfl

-- However classes were loaded, and in whatever order and however often their methods are bound, every
-- method at least once: each entity comes to hold exactly the instructions that name it, nothing
-- else in the program changes, and the outcome is the one of binding all methods in one pass.
theorem resolve_each_exact [Libraries] (settings : Settings) (actions : List SessionAction)
    (order : List MethodId) (loads : ∀ action ∈ actions, action.IsLoad)
    (covers : ∀ id ∈ ((start settings).run actions).program.methodIds, id ∈ order) :
    let p := ((start settings).run actions).program
    let q := p.resolveEach order
    (∀ target ref, ref ∈ q.records target ↔ ∃ m i, p.method? ref.method = some m ∧
      i ∈ m.code.toList ∧ i.id = ref.insn ∧ p.lookup? (some m.owner) i.operand = some target) ∧
    q.bare = p ∧ q = p.resolveAll.1 :=
  (just_loaded_run _ actions loads (just_loaded_start settings)).resolve_each order covers

-- The subclass is bound twice and first; an identity that is no method's is passed over.
theorem resolve_each_exact_base_and_child :
    let p := ((start {}).run baseAndChild).program
    let order : List MethodId := [⟨5⟩, ⟨9⟩, ⟨3⟩, ⟨5⟩]
    ((∀ action ∈ baseAndChild, action.IsLoad) ∧ ∀ id ∈ p.methodIds, id ∈ order) ∧
      p.resolveEach order = p.resolveAll.1 ∧
      ⟨⟨5⟩, ⟨6⟩⟩ ∈ (p.resolveEach order).records (.field ⟨2⟩) := by
  intro p order
  have loads : ∀ action ∈ baseAndChild, action.IsLoad := by decide
  have covers : ∀ id ∈ p.methodIds, id ∈ order := by decide
  have exact := resolve_each_exact {} baseAndChild order loads covers
  exact ⟨⟨loads, covers⟩, exact.2.2, by decide⟩

end Session

end JvmEdit
