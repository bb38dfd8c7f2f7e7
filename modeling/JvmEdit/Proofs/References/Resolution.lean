import JvmEdit.Proofs.Data.OrderedSet
import JvmEdit.Proofs.References.Session
set_option autoImplicit false

namespace JvmEdit

instance : IsStrictTotalOrder InsnRef (· < ·) where
  irrefl a less := by
    rcases less with before | ⟨_, before⟩
    · exact Nat.lt_irrefl _ before
    · exact Nat.lt_irrefl _ before
  trans a b c less more := by
    rcases less with before | ⟨same, before⟩
    · rcases more with after | ⟨same, _⟩
      · exact Or.inl (Nat.lt_trans before after)
      · exact Or.inl (same ▸ before)
    · rcases more with after | ⟨same', after⟩
      · exact Or.inl (same ▸ after)
      · exact Or.inr ⟨same.trans same', Nat.lt_trans before after⟩
  trichotomous a b notLess notMore := by
    obtain ⟨⟨m⟩, ⟨i⟩⟩ := a
    obtain ⟨⟨n⟩, ⟨j⟩⟩ := b
    change ¬(m < n ∨ MethodId.mk m = ⟨n⟩ ∧ i < j) at notLess
    change ¬(n < m ∨ MethodId.mk n = ⟨m⟩ ∧ j < i) at notMore
    have methods : m = n := by omega
    subst methods
    have insns : i = j := by simp at notLess notMore; omega
    rw [insns]

def Class.bare (c : Class) : Class := { c with typeReferences := .empty }

def Field.bare (f : Field) : Field := { f with references := .empty }

def Method.bare (m : Method) : Method := { m with invocations := .empty }

namespace Program

-- The program with nothing recorded.
def bare (p : Program) : Program := { p with
  classes := p.classes.mapValues Class.bare
  fields := p.fields.mapValues Field.bare
  methods := p.methods.mapValues Method.bare }

-- Every row of the index leads to something loaded.
structure RowsLive (p : Program) : Prop where
  classes : ∀ name id, p.findClass? name = some id → p.Live (.class id)
  fields : ∀ key id, p.findFieldKey? key = some id → p.Live (.field id)
  methods : ∀ key id, p.findMethodKey? key = some id → p.Live (.method id)

-- An instruction of a live method names a target from the class of the method.
def Names (p : Program) (target : Target) (ref : InsnRef) : Prop :=
  ∃ m i, p.method? ref.method = some m ∧ i ∈ m.code.toList ∧ i.id = ref.insn ∧
    p.lookup? (some m.owner) i.operand = some target

-- Binds the instructions of methods, one method after another.
def resolveEach (p : Program) (order : List MethodId) : Program :=
  order.foldl (fun q id => (q.resolveMethod id).1) p

theorem live_same_names (p q : Program) (same : SameNames p q) (target : Target) :
    q.Live target ↔ p.Live target := by
  cases target with
  | field id => rw [Live, same.fields, Live]
  | method id => rw [Live, same.methods, Live]
  | «class» id => rw [Live, same.classes, Live]

theorem rows_live_same_names (p q : Program) (same : SameNames p q) (rows : p.RowsLive) :
    q.RowsLive where
  classes name id found :=
    (live_same_names p q same _).mpr (rows.classes name id (by rw [findClass?, ← same.index]; exact found))
  fields key id found :=
    (live_same_names p q same _).mpr (rows.fields key id (by rw [findFieldKey?, ← same.index]; exact found))
  methods key id found :=
    (live_same_names p q same _).mpr (rows.methods key id (by rw [findMethodKey?, ← same.index]; exact found))

theorem rows_live_of_indexed (p : Program) (indexed : p.Indexed) : p.RowsLive where
  classes name id found := by
    obtain ⟨c, live, _⟩ := class_name_live p id name ((indexed.classNames name id).mp found)
    rw [Live, classNaming?, live]
    rfl
  fields key id found := by
    obtain ⟨f, _, live, _⟩ := field_key_live p id key ((indexed.fields.inverse key id).mp found)
    rw [Live, fieldNaming?, live]
    rfl
  methods key id found := by
    obtain ⟨m, _, live, _⟩ := method_key_live p id key ((indexed.methods.inverse key id).mp found)
    rw [Live, methodNaming?, live]
    rfl

theorem live_of_lookup? (p : Program) (rows : p.RowsLive) (context : ClassId) (operand : Operand)
    (target : Target) (named : p.lookup? (some context) operand = some target) : p.Live target := by
  cases target with
  | field id =>
      obtain ⟨u, _, direct | ⟨_, superName, _, inherited⟩⟩ := lookup?_field p context operand id named
      · exact rows.fields _ id direct
      · exact rows.fields _ id inherited
  | method id =>
      obtain ⟨c, _, found⟩ := lookup?_method p context operand id named
      exact rows.methods _ id found
  | «class» id =>
      obtain ⟨_, name, _, _, found⟩ := lookup?_class p context operand id named
      exact rows.classes name id found

section Records

variable (p : Program)

theorem holds_record_iff (target other : Target) (ref held : InsnRef) (live : p.Live target) :
    (p.record target ref).Holds other held ↔ p.Holds other held ∨ other = target ∧ held = ref := by
  rw [Holds, records_record p target other ref live]
  by_cases same : target = other
  · rw [if_pos same, OrderedSet.mem_insert]
    simp [Holds, same, or_comm]
  · simp [Holds, same, Ne.symm same]

theorem holds_remember_iff (rows : p.RowsLive) (context : ClassId) (ref : InsnRef)
    (operand : Operand) (other : Target) (held : InsnRef) :
    (p.remember context ref operand).Holds other held ↔
      p.Holds other held ∨ held = ref ∧ p.lookup? (some context) operand = some other := by
  simp only [remember]
  cases found : p.lookup? (some context) operand with
  | none => simp
  | some target =>
      dsimp only
      rw [holds_record_iff p target other ref held (live_of_lookup? p rows context operand target found)]
      simp [eq_comm, and_comm]

-- Every entity holds its records in order, each of them once.
def RecordsSorted (p : Program) : Prop := ∀ target, (p.records target).Sorted

theorem records_sorted_remember (rows : p.RowsLive) (context : ClassId) (ref : InsnRef)
    (operand : Operand) (sorted : p.RecordsSorted) : (p.remember context ref operand).RecordsSorted := by
  intro other
  simp only [remember]
  split
  · rename_i target named
    rw [records_record p target other ref (live_of_lookup? p rows context operand target named)]
    split
    · exact OrderedSet.sorted_insert _ ref (sorted other)
    · exact sorted other
  · exact sorted other

theorem bare_update_field (id : FieldId) (f : Field → Field) (hidden : ∀ x, (f x).bare = x.bare) :
    (p.updateField id f).bare = p.bare := by
  have fields := Table.map_values_modify p.fields id f Field.bare hidden
  rw [updateField, bare, bare]
  exact congrArg (fun rows => { p with
    classes := p.classes.mapValues Class.bare, fields := rows
    methods := p.methods.mapValues Method.bare }) fields

theorem bare_update_method (id : MethodId) (f : Method → Method) (hidden : ∀ m, (f m).bare = m.bare) :
    (p.updateMethod id f).bare = p.bare := by
  have methods := Table.map_values_modify p.methods id f Method.bare hidden
  rw [updateMethod, bare, bare]
  exact congrArg (fun rows => { p with
    classes := p.classes.mapValues Class.bare, fields := p.fields.mapValues Field.bare
    methods := rows }) methods

theorem bare_update_class (id : ClassId) (f : Class → Class) (hidden : ∀ c, (f c).bare = c.bare) :
    (p.updateClass id f).bare = p.bare := by
  have classes := Table.map_values_modify p.classes id f Class.bare hidden
  rw [updateClass, bare, bare]
  exact congrArg (fun rows => { p with
    classes := rows, fields := p.fields.mapValues Field.bare
    methods := p.methods.mapValues Method.bare }) classes

theorem bare_record (target : Target) (ref : InsnRef) : (p.record target ref).bare = p.bare := by
  cases target with
  | field id => exact bare_update_field p id _ fun _ => rfl
  | method id => exact bare_update_method p id _ fun _ => rfl
  | «class» id => exact bare_update_class p id _ fun _ => rfl

theorem bare_unrecord (target : Target) (ref : InsnRef) : (p.unrecord target ref).bare = p.bare := by
  cases target with
  | field id => exact bare_update_field p id _ fun _ => rfl
  | method id => exact bare_update_method p id _ fun _ => rfl
  | «class» id => exact bare_update_class p id _ fun _ => rfl

theorem bare_remember (context : ClassId) (ref : InsnRef) (operand : Operand) :
    (p.remember context ref operand).bare = p.bare := by
  simp only [remember]
  split
  · exact bare_record p _ ref
  · rfl

theorem bare_forget_references (id : MethodId) (context : ClassId) :
    (p.forgetReferences id context).bare = p.bare := by
  rw [forgetReferences]
  refine List.foldlRecOn (motive := fun q : Program => q.bare = p.bare) _ _ rfl fun q same i _ => ?_
  rw [← same, forget]
  split
  · exact bare_unrecord q _ _
  · rfl

end Records

section Bare

variable (p q : Program) (same : q.bare = p.bare)

include same

theorem index_of_bare : q.index = p.index := by
  have index : q.bare.index = p.bare.index := by rw [same]
  exact index

theorem class?_of_bare (id : ClassId) : (q.class? id).map Class.bare = (p.class? id).map Class.bare := by
  have rows : q.classes.mapValues Class.bare = p.classes.mapValues Class.bare :=
    congrArg Program.classes same
  rw [class?, class?, ← Table.get?_map_values, rows, Table.get?_map_values]

theorem method?_of_bare (id : MethodId) :
    (q.method? id).map Method.bare = (p.method? id).map Method.bare := by
  have rows : q.methods.mapValues Method.bare = p.methods.mapValues Method.bare :=
    congrArg Program.methods same
  rw [method?, method?, ← Table.get?_map_values, rows, Table.get?_map_values]

theorem lookup?_of_bare (context : ClassId) (operand : Operand) :
    q.lookup? (some context) operand = p.lookup? (some context) operand := by
  refine lookup?_congr p q (index_of_bare p q same) (fun c => ?_) context operand
  have supers := congrArg (Option.bind · (·.superName)) (class?_of_bare p q same c)
  simpa [super?, Option.bind_map, Function.comp_def, Class.bare] using supers

theorem site_of_bare (id : MethodId) (m : Method) (live : p.method? id = some m) :
    ∃ m', q.method? id = some m' ∧ m'.owner = m.owner ∧ m'.code = m.code := by
  have rows := method?_of_bare p q same id
  rw [live] at rows
  obtain ⟨m', live', agree⟩ := Option.map_eq_some_iff.mp rows
  have owner : m'.bare.owner = m.bare.owner := by rw [agree]
  have code : m'.bare.code = m.bare.code := by rw [agree]
  exact ⟨m', live', owner, code⟩

theorem names_of_bare (target : Target) (ref : InsnRef) (names : p.Names target ref) :
    q.Names target ref := by
  obtain ⟨m, i, live, member, isInsn, named⟩ := names
  obtain ⟨m', live', owner, code⟩ := site_of_bare p q same ref.method m live
  refine ⟨m', i, live', code ▸ member, isInsn, ?_⟩
  rw [lookup?_of_bare p q same, owner]
  exact named

theorem eq_of_records (classes : p.classes.Ordered) (fields : p.fields.Ordered)
    (methods : p.methods.Ordered) (records : ∀ target, q.records target = p.records target) : q = p := by
  have classRows : q.classes = p.classes := by
    refine Table.eq_of_map_values _ _ classes _ (congrArg Program.classes same) ?_
    intro id c c' live live' agree
    have held := records (.class id)
    rw [Program.records, Program.records, class?, class?, live, live'] at held
    rw [show c' = { c'.bare with typeReferences := c'.typeReferences } from rfl, agree]
    exact congrArg (fun refs => { c.bare with typeReferences := refs }) held
  have fieldRows : q.fields = p.fields := by
    refine Table.eq_of_map_values _ _ fields _ (congrArg Program.fields same) ?_
    intro id f f' live live' agree
    have held := records (.field id)
    rw [Program.records, Program.records, field?, field?, live, live'] at held
    rw [show f' = { f'.bare with references := f'.references } from rfl, agree]
    exact congrArg (fun refs => { f.bare with references := refs }) held
  have methodRows : q.methods = p.methods := by
    refine Table.eq_of_map_values _ _ methods _ (congrArg Program.methods same) ?_
    intro id m m' live live' agree
    have held := records (.method id)
    rw [Program.records, Program.records, method?, method?, live, live'] at held
    rw [show m' = { m'.bare with invocations := m'.invocations } from rfl, agree]
    exact congrArg (fun refs => { m.bare with invocations := refs }) held
  calc q = { q.bare with classes := q.classes, fields := q.fields, methods := q.methods } := rfl
    _ = { p.bare with classes := p.classes, fields := p.fields, methods := p.methods } := by
        rw [same, classRows, fieldRows, methodRows]

end Bare

section Resolve

variable (p : Program)

theorem remembers_frame (context : ClassId) (id : MethodId) (instructions : List Instruction) :
    (instructions.foldl (fun q i => q.remember context ⟨id, i.id⟩ i.operand) p).bare = p.bare ∧
    SameNames p (instructions.foldl (fun q i => q.remember context ⟨id, i.id⟩ i.operand) p) := by
  induction instructions generalizing p with
  | nil => exact ⟨rfl, .refl p⟩
  | cons i instructions ih =>
      obtain ⟨bare, names⟩ := ih (p.remember context ⟨id, i.id⟩ i.operand)
      exact ⟨bare.trans (bare_remember p context _ i.operand),
        (same_names_remember p context _ i.operand).trans names⟩

theorem records_sorted_remembers (rows : p.RowsLive) (context : ClassId) (id : MethodId)
    (instructions : List Instruction) (sorted : p.RecordsSorted) :
    (instructions.foldl (fun q i => q.remember context ⟨id, i.id⟩ i.operand) p).RecordsSorted := by
  induction instructions generalizing p with
  | nil => exact sorted
  | cons i instructions ih =>
      apply ih
      · exact rows_live_same_names p _ (same_names_remember p context _ i.operand) rows
      · exact records_sorted_remember p rows context _ i.operand sorted

theorem holds_remembers_iff (rows : p.RowsLive) (context : ClassId) (id : MethodId)
    (instructions : List Instruction) (target : Target) (ref : InsnRef) :
    (instructions.foldl (fun q i => q.remember context ⟨id, i.id⟩ i.operand) p).Holds target ref ↔
      p.Holds target ref ∨ ∃ i ∈ instructions, ref = ⟨id, i.id⟩ ∧
        p.lookup? (some context) i.operand = some target := by
  induction instructions generalizing p with
  | nil => simp
  | cons i instructions ih =>
      have names := same_names_remember p context ⟨id, i.id⟩ i.operand
      have bare := bare_remember p context ⟨id, i.id⟩ i.operand
      rw [List.foldl_cons, ih _ (rows_live_same_names p _ names rows), holds_remember_iff p rows, or_assoc]
      simp only [lookup?_of_bare p _ bare, List.exists_mem_cons_iff]

theorem resolve_method_frame (id : MethodId) :
    (p.resolveMethod id).1.bare = p.bare ∧ SameNames p (p.resolveMethod id).1 := by
  cases live : p.method? id with
  | none =>
      rw [resolve_method_dead p id live]
      exact ⟨rfl, .refl p⟩
  | some m =>
      rw [resolve_method_program p id m live]
      exact remembers_frame p m.owner id _

theorem records_sorted_resolve_method (rows : p.RowsLive) (id : MethodId) (sorted : p.RecordsSorted) :
    (p.resolveMethod id).1.RecordsSorted := by
  cases live : p.method? id with
  | none =>
      rw [resolve_method_dead p id live]
      exact sorted
  | some m =>
      rw [resolve_method_program p id m live]
      exact records_sorted_remembers p rows m.owner id _ sorted

theorem holds_resolve_method (rows : p.RowsLive) (id : MethodId) (target : Target) (ref : InsnRef) :
    (p.resolveMethod id).1.Holds target ref ↔
      p.Holds target ref ∨ ref.method = id ∧ p.Names target ref := by
  cases live : p.method? id with
  | none =>
      rw [resolve_method_dead p id live]
      refine (or_iff_left ?_).symm
      rintro ⟨own, m, _, found, _⟩
      rw [own, live] at found
      cases found
  | some m =>
      rw [resolve_method_program p id m live, holds_remembers_iff p rows]
      refine or_congr_right ?_
      rw [referencesOf, live]
      constructor
      · rintro ⟨i, member, isRef, named⟩
        subst isRef
        exact ⟨rfl, m, i, live, (List.mem_filter.mp member).1, rfl, named⟩
      · rintro ⟨own, m', i, live', member, isInsn, named⟩
        subst own
        cases live.symm.trans live'
        have reference := is_reference_of_lookup? p m.owner i.operand target named
        refine ⟨i, List.mem_filter.mpr ⟨member, reference⟩, ?_, named⟩
        rw [isInsn]

variable (order : List MethodId)

theorem resolve_each_frame : (p.resolveEach order).bare = p.bare ∧ SameNames p (p.resolveEach order) := by
  induction order generalizing p with
  | nil => exact ⟨rfl, .refl p⟩
  | cons id order ih =>
      obtain ⟨bare, names⟩ := resolve_method_frame p id
      obtain ⟨later, laterNames⟩ := ih (p.resolveMethod id).1
      exact ⟨later.trans bare, names.trans laterNames⟩

theorem records_sorted_resolve_each (rows : p.RowsLive) (sorted : p.RecordsSorted) :
    (p.resolveEach order).RecordsSorted := by
  induction order generalizing p with
  | nil => exact sorted
  | cons id order ih =>
      apply ih
      · exact rows_live_same_names p _ (resolve_method_frame p id).2 rows
      · exact records_sorted_resolve_method p rows id sorted

theorem holds_resolve_each (rows : p.RowsLive) (target : Target) (ref : InsnRef) :
    (p.resolveEach order).Holds target ref ↔
      p.Holds target ref ∨ ref.method ∈ order ∧ p.Names target ref := by
  induction order generalizing p with
  | nil => simp [resolveEach]
  | cons id order ih =>
      obtain ⟨bare, names⟩ := resolve_method_frame p id
      have same : (p.resolveMethod id).1.Names target ref ↔ p.Names target ref :=
        ⟨names_of_bare _ p bare.symm target ref, names_of_bare p _ bare target ref⟩
      have step := ih (p.resolveMethod id).1 (rows_live_same_names p _ names rows)
      rw [resolveEach, List.foldl_cons, ← resolveEach, step, holds_resolve_method p rows, same,
        or_assoc, List.mem_cons, or_and_right]

theorem resolve_all_eq_resolve_each : p.resolveAll.1 = p.resolveEach p.methodIds := resolve_all_program p

end Resolve

end Program

end JvmEdit
