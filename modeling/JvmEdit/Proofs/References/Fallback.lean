import JvmEdit.Libraries.Standard
import JvmEdit.Proofs.References.ClassRename
import Mathlib.Logic.Relation
set_option autoImplicit false

namespace JvmEdit

def MemberEdit.OfField (id : FieldId) : MemberEdit → Prop
  | .renameField i _ | .moveField i _ | .deleteField i => i = id
  | _ => False

namespace Program

def Declares (p : Program) (owner name : String) (id : FieldId) : Prop :=
  ∃ f, p.field? id = some f ∧ p.className? f.owner = some owner ∧ f.name = name

-- The second name is that of the first class or of one of its superclasses.
def Inherits (p : Program) : String → String → Prop :=
  Relation.ReflTransGen fun name parent =>
    ∃ c, p.className? c = some name ∧ p.super? c = some parent

-- The owner declares no such field, and the superclass of the surrounding class is no class that the
-- owner could have it from.
def Strays (p : Program) (context : ClassId) (u : FieldUse) : Prop :=
  (∀ id, ¬p.Declares u.owner u.name id) ∧
    ∃ parent, p.super? context = some parent ∧ ¬p.Inherits u.owner parent

section Lookup

variable (p : Program) (indexed : p.Indexed) (context : ClassId) (u : FieldUse)

include indexed

theorem Indexed.find_field_key?_none : p.findFieldKey? u.key = none ↔
    ∀ id, ¬p.Declares u.owner u.name id := by
  rw [Option.eq_none_iff_forall_ne_some]
  exact forall_congr' fun id => not_congr (indexed.find_field?_iff p id u.owner u.name)

theorem Indexed.lookup?_field_iff (id : FieldId) :
    p.lookup? (some context) (.field u) = some (.field id) ↔
      p.Declares u.owner u.name id ∨ (∀ other, ¬p.Declares u.owner u.name other) ∧
        ∃ parent, p.super? context = some parent ∧ p.Declares parent u.name id := by
  have own := indexed.find_field?_iff p id u.owner u.name
  rw [lookup?_use, inherited_field?_eq, ← indexed.find_field_key?_none]
  cases direct : p.findFieldKey? u.key with
  | some other =>
      rw [show p.findField? u.owner u.name = some other from direct] at own
      simpa [Declares] using own
  | none =>
      have undeclared := (indexed.find_field_key?_none p u).mp direct id
      simp only [undeclared, Option.none_or, Option.map_eq_some_iff, Option.bind_eq_some_iff,
        Target.field.injEq, exists_eq_right, false_or, true_and]
      exact exists_congr fun parent => and_congr_right fun _ =>
        indexed.find_field?_iff p id parent u.name

theorem Indexed.related_iff (id : FieldId)
    (named : p.lookup? (some context) (.field u) = some (.field id)) :
    ∃ owner, p.Declares owner u.name id ∧ (p.Inherits u.owner owner ↔ ¬p.Strays context u) := by
  rcases (indexed.lookup?_field_iff p context u id).mp named with own | ⟨undeclared, parent, isSuper, inherited⟩
  · refine ⟨u.owner, own, fun _ strays => strays.1 id own, fun _ => .refl⟩
  · refine ⟨parent, inherited, fun related strays => ?_, fun straight => ?_⟩
    · obtain ⟨_, parent', isSuper', unrelated⟩ := strays
      cases isSuper.symm.trans isSuper'
      exact unrelated related
    · by_contra unrelated
      exact straight ⟨undeclared, parent, isSuper, unrelated⟩

end Lookup

theorem eq_of_inherits (p : Program) (indexed : p.Indexed) (name parent : String)
    (absent : p.findClass? name = none) (inherits : p.Inherits name parent) : parent = name := by
  rcases inherits.cases_head with same | ⟨next, ⟨c, live, _⟩, _⟩
  · exact same.symm
  · have found := (indexed.classNames name c).mpr live
    rw [show p.index.classes.get? name = none from absent] at found
    cases found

theorem not_strays_own (p : Program) (context : ClassId) (u : FieldUse)
    (own : p.className? context = some u.owner) : ¬p.Strays context u := by
  rintro ⟨_, parent, isSuper, unrelated⟩
  exact unrelated (.single ⟨context, own, isSuper⟩)

section Untouched

variable (p : Program) (ref : InsnRef)

theorem site?_remove_instruction_apart (other : InsnRef) (apart : ref ≠ other) :
    (p.removeInstruction ref).1.site? other = p.site? other := by
  rcases remove_instruction_program p ref with same | removed
  · rw [same]
  · rw [removed, site?, method?_update_method, site?]
    by_cases sameMethod : ref.method = other.method
    · have differ : ref.insn ≠ other.insn := fun sameInsn =>
        apart (InsnRef.mk.injEq .. ▸ ⟨sameMethod, sameInsn⟩)
      rw [if_pos sameMethod]
      cases p.method? other.method with
      | none => rfl
      | some m => simp only [Option.map_some, Option.bind_some, Stream.get?_remove_apart m.code _ _ differ]
    · rw [if_neg sameMethod]

theorem site?_sweep_apart (step : Program → InsnRef → Program)
    (one : ∀ q other, other ≠ ref → (step q other).site? ref = q.site? ref) (refs : List InsnRef)
    (apart : ref ∉ refs) : (refs.foldl step p).site? ref = p.site? ref := by
  induction refs generalizing p with
  | nil => rfl
  | cons other refs ih =>
      rw [List.mem_cons, not_or] at apart
      rw [List.foldl_cons, ih _ apart.2, one p other (Ne.symm apart.1)]

theorem site?_remove_instructions_apart (refs : List InsnRef) (apart : ref ∉ refs) :
    (p.removeInstructions refs).1.site? ref = p.site? ref := by
  rw [remove_instructions_program]
  exact site?_sweep_apart p ref _ (fun q other => site?_remove_instruction_apart q other ref) refs apart

theorem site?_retargets_apart (f : Operand → Operand) (refs : List InsnRef) (apart : ref ∉ refs) :
    (refs.foldl (retarget · f) p).site? ref = p.site? ref := by
  refine site?_sweep_apart p ref _ (fun q other differ => ?_) refs apart
  rw [retarget, (same_sites_resolve_instruction _ _).sites, site?_update_operand, if_neg differ]

theorem site?_update_all_apart (f : Operand → Operand) (refs : OrderedSet InsnRef)
    (apart : ref ∉ refs.toList) : (p.updateAll refs f).site? ref = p.site? ref := by
  refine site?_sweep_apart p ref _ (fun q other differ => ?_) refs.toList apart
  rw [site?_update_operand, if_neg differ]

theorem site?_rename_method_apart (q : Program) (id : MethodId) (new : String)
    (done : p.renameMethod id new = .ok q) (unrecorded : ¬p.Holds (.method id) ref) :
    q.site? ref = p.site? ref := by
  obtain ⟨m, live, _, ⟨_, rfl⟩ | ⟨owner, _, _, _, rfl⟩⟩ := rename_method_ok p q id new done
  · rfl
  · have apart : ref ∉ m.invocations.toList := by
      intro member
      rw [Holds, records, live] at unrecorded
      exact unrecorded ((OrderedSet.mem_to_list _ _).mp member)
    exact (site?_update_all_apart _ ref _ _ apart).trans (site?_relabel_method p id owner m.name new _ ref)

theorem site?_rename_field_apart (q : Program) (id : FieldId) (new : String)
    (done : p.renameField id new = .ok q) (unrecorded : ¬p.Holds (.field id) ref) :
    q.site? ref = p.site? ref := by
  obtain ⟨f, live, ⟨_, rfl⟩ | ⟨owner, _, _, _, _, _, rfl⟩⟩ := rename_field_ok p q id new done
  · rfl
  · refine site?_update_all_apart _ ref _ _ fun member => unrecorded ?_
    rw [Holds, records, live]
    exact (OrderedSet.mem_to_list _ _).mp member

theorem site?_edit_apart [Libraries] (q : Program) (id : FieldId) (e : MemberEdit) (indexed : p.Indexed)
    (ofField : e.OfField id) (done : p.edit e = .ok q) (unrecorded : ¬p.Holds (.field id) ref) :
    q.site? ref = p.site? ref := by
  have apart : ∀ f, p.field? id = some f → ref ∉ f.references.toList := by
    intro f live member
    rw [Holds, records, live] at unrecorded
    exact unrecorded ((OrderedSet.mem_to_list _ _).mp member)
  cases e with
  | renameField i new =>
      obtain rfl : i = id := ofField
      exact site?_rename_field_apart p ref q i new done unrecorded
  | moveField i destination =>
      obtain rfl : i = id := ofField
      obtain ⟨f, owner, name, live, _, _, _, _, _, rfl⟩ :=
        move_field_ok p q i destination indexed.is_owned done
      exact site?_retargets_apart _ ref _ _ (apart f live)
  | deleteField i =>
      obtain rfl : i = id := ofField
      obtain ⟨logged, deleted, rfl⟩ := except_map _ _ _ done
      obtain ⟨f, owner, live, _, rfl⟩ := delete_field_ok p logged i indexed.is_owned deleted
      rw [(same_sites_refresh _ _).sites]
      exact site?_remove_instructions_apart p ref f.references.toList (apart f live)
  | renameMethod _ _ => exact ofField.elim
  | moveMethod _ _ => exact ofField.elim
  | deleteMethod _ => exact ofField.elim
  | deleteInstructions _ _ => exact ofField.elim

end Untouched

end Program

namespace Session

-- Classes are loaded, instructions bound, and after that anything may happen.
def worked [Libraries] (settings : Settings) (loads actions : List SessionAction) : Program :=
  (({ (start settings).run loads with program := resolved settings loads } : Session).run
    actions).program

theorem indexed_worked [Libraries] (settings : Settings) (loads actions : List SessionAction)
    (plainLoads : ∀ action ∈ loads, action.Plain) (plain : ∀ action ∈ actions, action.Plain) :
    (worked settings loads actions).Indexed :=
  indexed_run _ actions (Program.indexed_same_names _ _ (Program.same_names_resolve_all _)
    (indexed_run _ loads (indexed_start settings) plainLoads)) plain

-- A field instruction names a field of its own owner, or else a field of the superclass of the class
-- it stands in. It is a field that its owner has or inherits exactly if the instruction does not
-- stray, which no instruction does that gives its own class as owner. Edits of a field leave all
-- instructions alone that are not recorded with it.
theorem lookup?_field_or_strays [Libraries] (settings : Settings) (loads actions : List SessionAction)
    (plainLoads : ∀ action ∈ loads, action.Plain) (plain : ∀ action ∈ actions, action.Plain)
    (context : ClassId) (u : FieldUse) (id : FieldId) :
    let p := worked settings loads actions
    (p.lookup? (some context) (.field u) = some (.field id) ↔
      p.Declares u.owner u.name id ∨ (∀ other, ¬p.Declares u.owner u.name other) ∧
        ∃ parent, p.super? context = some parent ∧ p.Declares parent u.name id) ∧
    (p.lookup? (some context) (.field u) = some (.field id) →
      ∃ owner, p.Declares owner u.name id ∧ (p.Inherits u.owner owner ↔ ¬p.Strays context u)) ∧
    (p.className? context = some u.owner → ¬p.Strays context u) ∧
    ∀ e q, e.OfField id → p.edit e = .ok q → ∀ ref, ¬p.Holds (.field id) ref →
      q.site? ref = p.site? ref := by
  intro p
  have indexed : p.Indexed := indexed_worked settings loads actions plainLoads plain
  exact ⟨indexed.lookup?_field_iff p context u id, indexed.related_iff p context u id,
    p.not_strays_own context u, fun e q ofField done ref unrecorded =>
      p.site?_edit_apart ref q id e indexed ofField done unrecorded⟩

-- Read under the name of its own class, the inherited field is one the subclass has.
theorem lookup?_field_or_strays_own : (∀ action ∈ absentOwner, action.Plain) ∧
    (∀ action ∈ [SessionAction.renameClass ⟨6⟩ "pkg/Moved"], action.Plain) ∧
    ∃ owner, (worked {} absentOwner [.renameClass ⟨6⟩ "pkg/Moved"]).Declares owner "n" ⟨2⟩ ∧
      (worked {} absentOwner [.renameClass ⟨6⟩ "pkg/Moved"]).Inherits "Child" owner := by
  have plainLoads : ∀ action ∈ absentOwner, action.Plain := by decide
  have plain : ∀ action ∈ [SessionAction.renameClass ⟨6⟩ "pkg/Moved"], action.Plain := by decide
  obtain ⟨_, related, own, _⟩ := lookup?_field_or_strays {} absentOwner
    [.renameClass ⟨6⟩ "pkg/Moved"] plainLoads plain ⟨3⟩ ⟨"Child", "n", "I", .read, false⟩ ⟨2⟩
  obtain ⟨owner, declares, inherits⟩ := related rfl
  exact ⟨plainLoads, plain, owner, declares, inherits.mpr (own rfl)⟩

-- A class of that name is not even loaded, and yet the instruction leads to a field of the
-- superclass and goes when that field is deleted.
theorem absent_owner_strays :
    let p := resolved {} absentOwner
    p.findClass? "Missing" = none ∧
    p.site? ⟨⟨4⟩, ⟨5⟩⟩ = some (⟨3⟩, .field ⟨"Missing", "n", "I", .read, false⟩) ∧
    p.lookup? (some ⟨3⟩) (.field ⟨"Missing", "n", "I", .read, false⟩) = some (.field ⟨2⟩) ∧
    (¬∃ owner, p.Declares owner "n" ⟨2⟩ ∧ p.Inherits "Missing" owner) ∧
    (p.perform (.deleteField ⟨2⟩)).site? ⟨⟨4⟩, ⟨5⟩⟩ = none := by
  intro p
  have absent : p.findClass? "Missing" = none := by rfl
  refine ⟨absent, rfl, rfl, ?_, rfl⟩
  rintro ⟨owner, declares, inherits⟩
  have indexed := (bound_resolved {} absentOwner (by decide)).indexed
  obtain rfl := Program.eq_of_inherits p indexed "Missing" owner absent inherits
  have found := (indexed.find_field?_iff p ⟨2⟩ "Missing" "n").mpr declares
  cases found

end Session

end JvmEdit
