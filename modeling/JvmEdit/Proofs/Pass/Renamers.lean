import JvmEdit.Libraries.Standard
import JvmEdit.Proofs.Hierarchy.Inheritance
import JvmEdit.Proofs.Pass.Run
import JvmEdit.Proofs.References.Members
import JvmEdit.Proofs.References.Ready
set_option autoImplicit false

namespace JvmEdit

namespace Program

section Lookup

variable (p q : Program) (u u' : MemberUse) (c : ClassId)

-- From the same class on, the two uses come to the same member of their programs, or both to none.
def SameLookup : Prop :=
  ∀ t, Inherited q (q.memberIn? u') c t ↔ Inherited p (p.memberIn? u) c t

-- The member that was found goes by another name now than the one that is asked for.
def Missed : Prop :=
  ∃ t m, Inherited p (p.memberIn? u) c t ∧ q.member? t = some m ∧ m.name ≠ u'.name

-- A class without such a member, which was passed by, has one now.
def Intercepted : Prop :=
  ∃ d, Passes p (p.memberIn? u) c d ∧ p.memberIn? u d = none ∧ (q.memberIn? u' d).isSome

variable {p q u c} {renames : String → String → Prop}

section Renamed

variable (indexed : p.Indexed) (renamed : MembersRenamed renames p q)

include renamed in
theorem MembersRenamed.member_kept {t : Target} {m : Member} (before : p.member? t = some m) :
    ∃ name, q.member? t = some { m with name } ∧ (name = m.name ∨ renames m.name name) := by
  rcases renamed.members t with same | ⟨m', new, before', now, changed⟩
  · exact ⟨m.name, same.trans before, .inl rfl⟩
  · cases before.symm.trans before'
    exact ⟨new, now, .inr changed⟩

include indexed renamed

theorem same_lookup_iff (new : String) : p.SameLookup q u { u with name := new } c ↔
    ¬p.Missed q u { u with name := new } c ∧ ¬p.Intercepted q u { u with name := new } c := by
  have before := p.member_in?_iff indexed u
  have now := q.member_in?_iff renamed.bound.indexed { u with name := new }
  have stays : ∀ d e t, p.memberIn? u d = some t → q.memberIn? { u with name := new } e = some t →
      d = e := by
    intro d e t had has
    obtain ⟨_, kept, _⟩ := renamed.member_kept ((before d t).mp had)
    exact congrArg Member.owner (Option.some.inj (kept.symm.trans ((now e t).mp has)))
  rw [SameLookup, inherited_same_iff renamed.links.superclass stays]
  constructor
  · intro unchanged
    constructor
    · intro ⟨t, m, inherited, isMember, differ⟩
      obtain ⟨d, passes, had⟩ := (inherited_iff c t).mp inherited
      have has := (now d t).mp ((unchanged d passes).trans had)
      cases isMember.symm.trans has
      exact differ rfl
    · intro ⟨d, passes, absent, present⟩
      rw [unchanged d passes, absent] at present
      cases present
  · intro ⟨carried, free⟩ d passes
    cases had : p.memberIn? u d with
    | none =>
        rw [← Option.not_isSome_iff_eq_none]
        exact fun present => free ⟨d, passes, had, present⟩
    | some t =>
        obtain ⟨name, kept, _⟩ := renamed.member_kept ((before d t).mp had)
        apply (now d t).mpr
        by_cases same : name = new
        · rw [kept, same]
        · exact absurd ⟨t, _, (inherited_iff c t).mpr ⟨d, passes, had⟩, kept, same⟩ carried

end Renamed

end Lookup

-- The instruction at a place before and after members have new names: it follows the member that it is
-- recorded with, and finds what it found unless that member is missed or intercepted.
structure RenamedUse (p q : Program) (candidate : Nat → String) (ref : InsnRef) (u u' : MemberUse)
    (c : ClassId) : Prop where
  rest : u' = { u with name := u'.name }
  recorded : ∀ t, p.Holds t ref → ∃ m, q.member? t = some m ∧ m.name = u'.name
  unrecorded : (∀ t, ¬p.Holds t ref) → u' = u
  kept : p.SameLookup q u u' c ↔ ¬p.Missed q u u' c ∧ ¬p.Intercepted q u u' c
  own : (p.memberIn? u c).isSome → p.SameLookup q u u' c
  spared : Renamer.isUnhelpful u.name = false → (∀ n, u.name ≠ candidate n) → p.SameLookup q u u' c

-- A name that says nothing gives way to a candidate.
def GivesWay (candidate : Nat → String) (old new : String) : Prop :=
  Renamer.isUnhelpful old = true ∧ ∃ n, new = candidate n

section Uses

variable {p q : Program} {candidate : Nat → String} (renamed : MembersRenamed (GivesWay candidate) p q)
  (bound : p.Bound) {ref : InsnRef} {u u' : MemberUse} (used : p.use? ref = some u)
  (usedNow : q.use? ref = some u')

include renamed bound used usedNow

theorem MembersRenamed.use_kept : u' = { u with name := u'.name } ∧
    ((∀ t, ¬p.Holds t ref) → u' = u) ∧ (u'.name = u.name ∨ GivesWay candidate u.name u'.name) := by
  rcases renamed.uses ref with same | ⟨t, u, new, held, before, now⟩
  · cases usedNow.symm.trans (same.trans used)
    exact ⟨rfl, fun _ => rfl, .inl rfl⟩
  · cases used.symm.trans before
    cases usedNow.symm.trans now
    refine ⟨rfl, fun unheld => absurd held (unheld t), ?_⟩
    obtain ⟨_, isMember⟩ := p.member?_of_held bound t ref u held before
    obtain ⟨name, kept, changed⟩ := renamed.member_kept isMember
    obtain ⟨_, isMemberNow⟩ := q.member?_of_held renamed.bound t ref _ ((renamed.recorded t ref).mpr held)
      now
    cases kept.symm.trans isMemberNow
    exact changed

omit bound used in
theorem MembersRenamed.recorded_kept (t : Target) (held : p.Holds t ref) :
    ∃ m, q.member? t = some m ∧ m.name = u'.name := by
  obtain ⟨_, isMember⟩ := q.member?_of_held renamed.bound t ref u' ((renamed.recorded t ref).mpr held)
    usedNow
  exact ⟨_, isMember, rfl⟩

theorem MembersRenamed.same_lookup_spared (helpful : Renamer.isUnhelpful u.name = false)
    (other : ∀ n, u.name ≠ candidate n) (c : ClassId) : p.SameLookup q u u' c := by
  have keeps : ∀ name, ¬GivesWay candidate u.name name := by
    intro name ⟨unhelpful, _⟩
    rw [helpful] at unhelpful
    cases unhelpful
  obtain ⟨rest, _, changed⟩ := renamed.use_kept bound used usedNow
  have sameName : u'.name = u.name := changed.resolve_right (keeps _)
  rw [rest, sameName, same_lookup_iff bound.indexed renamed]
  constructor
  · intro ⟨t, m, inherited, isMember, differ⟩
    obtain ⟨d, _, had⟩ := (inherited_iff c t).mp inherited
    obtain ⟨name, kept, changed⟩ := renamed.member_kept ((p.member_in?_iff bound.indexed u d t).mp had)
    cases isMember.symm.trans kept
    exact differ (changed.resolve_right (keeps name))
  · intro ⟨d, _, absent, present⟩
    obtain ⟨t, has⟩ := Option.isSome_iff_exists.mp present
    have isMember := (q.member_in?_iff renamed.bound.indexed _ d t).mp has
    rcases renamed.members t with same | ⟨m, new, before, now, _, n, isCandidate⟩
    · have had := (p.member_in?_iff bound.indexed u d t).mpr (same.symm.trans isMember)
      rw [absent] at had
      cases had
    · have name : new = u.name := congrArg Member.name (Option.some.inj (now.symm.trans isMember))
      exact other n (name.symm.trans isCandidate)

theorem MembersRenamed.same_lookup_own (complete : p.Complete) (c : ClassId)
    (loaded : p.findClass? u.owner = some c) (own : (p.memberIn? u c).isSome) : p.SameLookup q u u' c := by
  obtain ⟨t, has⟩ := Option.isSome_iff_exists.mp own
  have held := p.holds_of_member_in? bound.indexed complete ref u c t used loaded has
  obtain ⟨rest, _, _⟩ := renamed.use_kept bound used usedNow
  rw [rest, same_lookup_iff bound.indexed renamed]
  constructor
  · intro ⟨t', m, inherited, isMember, differ⟩
    cases inherited.unique (.own has)
    obtain ⟨m', isMember', name⟩ := renamed.recorded_kept usedNow t held
    cases isMember.symm.trans isMember'
    exact differ name
  · intro ⟨d, passes, absent, _⟩
    cases passes with
    | here => rw [absent] at has; cases has
    | above none _ _ => rw [none] at has; cases has

theorem MembersRenamed.renamed_use (complete : p.Complete) (c : ClassId)
    (loaded : p.findClass? u.owner = some c) : RenamedUse p q candidate ref u u' c where
  rest := (renamed.use_kept bound used usedNow).1
  recorded := renamed.recorded_kept usedNow
  unrecorded := (renamed.use_kept bound used usedNow).2.1
  kept := by
    rw [(renamed.use_kept bound used usedNow).1]
    exact same_lookup_iff bound.indexed renamed u'.name
  own := renamed.same_lookup_own bound used usedNow complete c loaded
  spared := fun helpful other => renamed.same_lookup_spared bound used usedNow helpful other c

end Uses

section Steps

variable (p q : Program)

theorem members_renamed_same (renames : String → String → Prop) (bound : p.Bound) (names : SameNames p q)
    (sites : SameSites p q) (links : SameLinks p q) (records : ∀ t, q.records t = p.records t) :
    MembersRenamed renames p q where
  bound := by
    have fewer : ∀ t ref, q.Holds t ref → p.Holds t ref := by
      intro t ref held
      rwa [Holds, records t] at held
    exact ⟨indexed_same_names p q names bound.indexed, sound_same_sites p q sites fewer bound.sound,
      sites.coded bound.coded⟩
  links := links
  recorded t ref := by rw [Holds, records t, Holds]
  members t := by
    cases t with
    | field id =>
        have same := congrArg (Option.map fun n => Member.mk n.owner n.name none) (names.fields id)
        rw [fieldNaming?, fieldNaming?, Option.map_map, Option.map_map] at same
        exact .inl same
    | method id =>
        have same := congrArg (Option.map fun n => Member.mk n.owner n.name (some n.descriptor))
          (names.methods id)
        rw [methodNaming?, methodNaming?, Option.map_map, Option.map_map] at same
        exact .inl same
    | «class» id => exact .inl rfl
  uses ref := by
    rw [use?, sites.sites]
    exact .inl rfl

theorem members_renamed_annotate_field (renames : String → String → Prop) (bound : p.Bound) (id : FieldId)
    (a : Annotation) : MembersRenamed renames p (p.annotateField id a) := by
  apply members_renamed_same p _ renames bound
  · exact same_names_update_field p id _ fun _ => rfl
  · exact same_sites_update_field p id _
  · exact same_links_update_field p id _
  · exact records_update_field p id _ fun _ => rfl

theorem members_renamed_annotate_method (renames : String → String → Prop) (bound : p.Bound) (id : MethodId)
    (a : Annotation) : MembersRenamed renames p (p.annotateMethod id a) := by
  apply members_renamed_same p _ renames bound
  · exact same_names_update_method p id _ fun _ => rfl
  · exact same_sites_update_method p id _ fun _ => ⟨rfl, rfl⟩
  · exact same_links_update_method p id _
  · exact records_update_method p id _ fun _ => rfl

theorem rename_field_refused (id : FieldId) (new : String) (f : Field) (indexed : p.Indexed)
    (live : p.field? id = some f) (e : EditError) (refused : p.renameField id new = .error e) :
    ∃ key, e = .nameTaken key := by
  obtain ⟨owner, loaded⟩ := indexed.is_owned.fields id f live
  simp only [renameField, live, loaded] at refused
  split at refused
  · cases refused
  · split at refused
    · cases refused
      exact ⟨_, rfl⟩
    · split at refused
      · cases refused
        exact ⟨_, rfl⟩
      · split at refused <;> cases refused
        exact ⟨_, rfl⟩

theorem rename_method_refused (id : MethodId) (new : String) (m : Method) (indexed : p.Indexed)
    (live : p.method? id = some m) (ordinary : m.isConstructor = false) (e : EditError)
    (refused : p.renameMethod id new = .error e) : ∃ key, e = .nameTaken key := by
  obtain ⟨owner, loaded⟩ := indexed.is_owned.methods id m live
  simp only [renameMethod, live, loaded, ordinary, Bool.false_eq_true, if_false] at refused
  split at refused
  · cases refused
  · split at refused <;> cases refused
    exact ⟨_, rfl⟩

end Steps

end Program

namespace PassContext

variable (c : PassContext) (new owner : String)

theorem rename_field_eq (id : FieldId) (f : Field) (live : c.program.field? id = some f)
    (loaded : c.program.className? f.owner = some owner) :
    c.renameField id new = (c.program.renameField id new).map fun q =>
      (({ c with program := q } : PassContext).annotate
        (·.annotateField id (renamedFrom f.name))).record (.field owner f.name) s!"renamed to {new}" := by
  have target : c.fieldTarget? id = some (.field owner f.name) := by
    rw [fieldTarget?, live, Option.bind_some, loaded]
    rfl
  rw [renameField, target]
  rfl

theorem rename_method_eq (id : MethodId) (m : Method) (live : c.program.method? id = some m)
    (loaded : c.program.className? m.owner = some owner) :
    c.renameMethod id new = (c.program.renameMethod id new).map fun q =>
      (({ c with program := q } : PassContext).annotate
        (·.annotateMethod id (renamedFrom m.name))).record (.method owner m.name m.descriptor)
        s!"renamed to {new}" := by
  have target : c.methodTarget? id = some (.method owner m.name m.descriptor) := by
    rw [methodTarget?, live, Option.bind_some, loaded]
    rfl
  rw [renameMethod, target]
  rfl

theorem program_marked (c : PassContext) (q : Program) (mark : Program → Program) (target : ChangeTarget)
    (message : String) :
    let after := (({ c with program := q } : PassContext).annotate mark).record target message
    after.program = q ∨ after.program = mark q := by
  rw [record, annotate]
  split
  · exact .inr rfl
  · exact .inl rfl

theorem members_renamed_marked (renames : String → String → Prop) (c : PassContext) (q : Program)
    (mark : Program → Program) (target : ChangeTarget) (message : String) (bound : q.Bound)
    (marks : ∀ q : Program, q.Bound → Program.MembersRenamed renames q (mark q)) :
    Program.MembersRenamed renames q
      ((({ c with program := q } : PassContext).annotate mark).record target message).program := by
  rw [record, annotate]
  split
  · exact marks q bound
  · exact Program.members_renamed_refl q bound

end PassContext

namespace Renamer

open Program

theorem first_free_some (attempt : Nat → Except EditError PassContext) (count left n : Nat)
    (result : Except EditError PassContext) (found : firstFree attempt count left = some (n, result)) :
    result = attempt n ∧ (count < n ∧ n ≤ count + left) ∧ ∀ key, result ≠ .error (.nameTaken key) := by
  induction left generalizing count with
  | zero => cases found
  | succ left ih =>
      rw [firstFree] at found
      split at found
      · obtain ⟨isAttempt, inside, free⟩ := ih (count + 1) found
        exact ⟨isAttempt, by omega, free⟩
      · rename_i free
        cases found
        exact ⟨rfl, by omega, free⟩

theorem yields_rename_next (rename : PassContext → String → Except EditError PassContext)
    (candidate : Nat → String) (count : Nat) (c : PassContext) (promise : Nat → PassContext → Prop)
    (edit : String → Except EditError Program) (finish : String → Program → PassContext)
    (edits : ∀ new, rename c new = (edit new).map (finish new))
    (refused : ∀ n e, edit (candidate n) = .error e → ∃ key, e = .nameTaken key) (kept : promise count c)
    (done : ∀ n q, count < n → n ≤ countLimit → edit (candidate n) = .ok q →
      promise n (finish (candidate n) q)) :
    Yields (renameNext rename candidate count) c promise := by
  apply yields_get_bind
  cases found : firstFree (fun n => rename c (candidate n)) count (countLimit - count) with
  | none => exact yields_pure count c _ kept
  | some first =>
      obtain ⟨n, result⟩ := first
      obtain ⟨isResult, inside, free⟩ := first_free_some _ _ _ n result found
      rw [edits] at isResult
      cases outcome : edit (candidate n) with
      | error e =>
          obtain ⟨key, rfl⟩ := refused n e outcome
          rw [outcome] at isResult
          exact absurd isResult (free key)
      | ok q =>
          rw [outcome] at isResult
          apply yields_bind _ _ c fun _ => promise n
          · exact Work.yields_edit _ _ _ isResult (done n q inside.1 (by omega) outcome)
          · exact fun _ s reached => yields_pure n s _ reached

theorem undotted_numbered (word : String) (plain : Undotted word) (n : Nat) :
    Undotted (word ++ toString n) := by
  intro dot
  rw [String.toList_append, List.mem_append] at dot
  rcases dot with inWord | inNumber
  · exact plain inWord
  · rw [show toString n = n.repr from rfl, Nat.toList_repr] at inNumber
    have digit := Nat.isDigit_of_mem_toDigits (by decide) (by decide) inNumber
    cases digit

theorem GivesWay.trans {candidate : Nat → String} (old new newer : String)
    (first : GivesWay candidate old new) (second : GivesWay candidate new newer) :
    GivesWay candidate old newer := ⟨first.1, second.2⟩

section Visits

variable (p : Program) (c : PassContext) (count : Nat)

theorem yields_visit_field (id : FieldId)
    (renamed : MembersRenamed (GivesWay fun n => s!"field{n}") p c.program) :
    Yields (visitField count id) c
      fun _ after => MembersRenamed (GivesWay fun n => s!"field{n}") p after.program := by
  apply yields_bind _ _ c (fun q after => q = c.program ∧ after = c) _ (Work.yields_program _ ⟨rfl, rfl⟩)
  intro q c both
  obtain ⟨rfl, rfl⟩ := both
  split
  · rename_i unhelpful
    obtain ⟨f, live, isUnhelpful⟩ := (Option.any_eq_true _ _).mp unhelpful
    have indexed := renamed.bound.indexed
    obtain ⟨owner, loaded⟩ := indexed.is_owned.fields id f live
    apply yields_rename_next _ _ count c _ _ _ (fun new => c.rename_field_eq new owner id f live loaded)
    · intro n e refused
      exact c.program.rename_field_refused id _ f indexed live e refused
    · exact renamed
    · intro n q _ _ done
      have step : MembersRenamed (GivesWay fun n => s!"field{n}") c.program q :=
        members_renamed_rename_field c.program q renamed.bound id _ f
          (undotted_numbered "field" (by decide) n) live ⟨isUnhelpful, n, rfl⟩ done
      apply (renamed.trans step GivesWay.trans).trans _ GivesWay.trans
      exact PassContext.members_renamed_marked _ c q _ _ _ step.bound fun q bound =>
        members_renamed_annotate_field q _ bound id _
  · exact yields_pure count c _ renamed

theorem yields_visit_method_edit (id : MethodId) (promise : Nat → PassContext → Prop)
    (usual : ∀ m, c.program.method? id = some m → m.isConstructor = false) (bound : c.program.Bound)
    (kept : promise count c)
    (done : ∀ m n q c', c.program.method? id = some m → isUnhelpful m.name = true → count < n →
      n ≤ countLimit → c.program.renameMethod id s!"method{n}" = .ok q →
      (c'.program = q ∨ ∃ a, c'.program = q.annotateMethod id a) → promise n c') :
    Yields (visitMethod count id) c promise := by
  apply yields_bind _ _ c (fun q after => q = c.program ∧ after = c) _ (Work.yields_program _ ⟨rfl, rfl⟩)
  intro q c both
  obtain ⟨rfl, rfl⟩ := both
  split
  · rename_i should
    rw [shouldRename, Bool.and_eq_true, Bool.and_eq_true] at should
    obtain ⟨m, live, unhelpful⟩ := (Option.any_eq_true _ _).mp should.1.1
    obtain ⟨owner, loaded⟩ := bound.indexed.is_owned.methods id m live
    apply yields_rename_next _ _ count c _ _ _ (fun new => c.rename_method_eq new owner id m live loaded)
    · intro n e refused
      exact c.program.rename_method_refused id _ m bound.indexed live (usual m live) e refused
    · exact kept
    · intro n q later limited renamed
      apply done m n q _ live (Bool.and_eq_true_iff.mp unhelpful).2 later limited renamed
      exact (PassContext.program_marked c q _ _ _).imp_right fun marked => ⟨_, marked⟩
  · exact yields_pure count c _ kept

theorem yields_visit_method (id : MethodId)
    (usual : ∀ m, c.program.method? id = some m → m.isConstructor = false)
    (renamed : MembersRenamed (GivesWay fun n => s!"method{n}") p c.program) :
    Yields (visitMethod count id) c
      fun _ after => MembersRenamed (GivesWay fun n => s!"method{n}") p after.program := by
  apply yields_visit_method_edit c count id _ usual renamed.bound renamed
  intro m n q c' live unhelpful _ _ done marked
  have step : MembersRenamed (GivesWay fun n => s!"method{n}") c.program q :=
    members_renamed_rename_method c.program q renamed.bound id _ m
      (undotted_numbered "method" (by decide) n) live ⟨unhelpful, n, rfl⟩ done
  have reached := renamed.trans step GivesWay.trans
  rcases marked with same | ⟨a, same⟩
  · rwa [same]
  · rw [same]
    exact reached.trans (members_renamed_annotate_method q _ step.bound id a) GivesWay.trans

end Visits

end Renamer

namespace Pass

open Program

-- The renamers of fields and of methods, with what they visit and the names that they give.
inductive RenamesMembers : Pass → NodeKind → (Nat → String) → Prop
  | fields (count : Nat) : RenamesMembers (.fieldRenamer count) .field fun n => s!"field{n}"
  | methods (count : Nat) : RenamesMembers (.methodRenamer count) .method fun n => s!"method{n}"

section Rename

variable (p : Program) (kind : NodeKind) (candidate : Nat → String)

def Renames (pass : Pass) (c : PassContext) : Prop :=
  pass.RenamesMembers kind candidate ∧ MembersRenamed (GivesWay candidate) p c.program

theorem renames_visit [Libraries] (pass : Pass) (c : PassContext) (owner : Owner) (node : Node)
    (so : Renames p kind candidate pass c) (one : kind.expand c.program owner = [node]) :
    Yields (pass.visit node) c (Renames p kind candidate) := by
  obtain ⟨renames, renamed⟩ := so
  cases renames with
  | fields count =>
      cases node with
      | field id =>
          apply yields_bind _ _ c _ _ (Renamer.yields_visit_field p c count id renamed)
          exact fun count c renamed => yields_pure _ c _ ⟨.fields count, renamed⟩
      | _ => exact yields_pure _ c _ ⟨.fields count, renamed⟩
  | methods count =>
      obtain ⟨id, m, _, rfl, live, usual⟩ := NodeKind.method_of_one c.program owner node one
      have usuals : ∀ m, c.program.method? id = some m → m.isConstructor = false := by
        intro m' live'
        cases live.symm.trans live'
        exact usual
      apply yields_bind _ _ c _ _ (Renamer.yields_visit_method p c count id usuals renamed)
      exact fun count c renamed => yields_pure _ c _ ⟨.methods count, renamed⟩

theorem renames_finish [Libraries] (pass : Pass) (c : PassContext)
    (so : Renames p kind candidate pass c) : Yields pass.finish c (Renames p kind candidate) := by
  have keeps : pass.finish = pure pass := by
    obtain ⟨renames, _⟩ := so
    cases renames <;> rfl
  rw [keeps]
  exact yields_pure pass c _ so

theorem members_renamed_run [Libraries] (pass : Pass) (c : PassContext) (bound : c.program.Bound)
    (renames : pass.RenamesMembers kind candidate) :
    Yields pass.run c fun _ after => MembersRenamed (GivesWay candidate) c.program after.program := by
  have isKind : pass.metadata.kind = kind ∧ ∀ q owner, (kind.expand q owner).length ≤ 1 := by
    cases renames with
    | fields => exact ⟨rfl, NodeKind.single_field⟩
    | methods => exact ⟨rfl, NodeKind.single_method⟩
  obtain ⟨rfl, single⟩ := isKind
  let reached := Renames c.program pass.metadata.kind candidate
  have ran : Yields pass.run c fun ran after => reached ran.1 after := by
    apply yields_run_owners pass c (fun _ => reached) reached single
    · exact ⟨renames, members_renamed_refl _ bound⟩
    · exact fun _ pass now owner so _ => so
    · exact fun _ pass now owner node so one => renames_visit c.program _ candidate pass now owner node so one
    · exact fun pass now so => renames_finish c.program _ candidate pass now so
  exact yields_mono _ c _ _ ran fun _ after so => so.2

-- A renamer of fields or methods runs to its end. Each instruction that names a loaded class then
-- stands where it stood, and finds what it found unless that is missed or intercepted.
theorem renamed_uses_run [Libraries] (pass : Pass) (c : PassContext) (bound : c.program.Bound)
    (complete : c.program.Complete) (renames : pass.RenamesMembers kind candidate) :
    Yields pass.run c fun _ after => ∀ ref u k, c.program.use? ref = some u →
      c.program.findClass? u.owner = some k → after.program.findClass? u.owner = some k ∧
        ∃ u', after.program.use? ref = some u' ∧
          RenamedUse c.program after.program candidate ref u u' k := by
  apply yields_mono _ c _ _ (members_renamed_run kind candidate pass c bound renames)
  intro _ after renamed ref u k used loaded
  refine ⟨(renamed.links.find_class u.owner).trans loaded, ?_⟩
  have present : ∃ u', after.program.use? ref = some u' := by
    rcases renamed.uses ref with same | ⟨_, _, _, _, _, now⟩
    · exact ⟨u, same.trans used⟩
    · exact ⟨_, now⟩
  obtain ⟨u', usedNow⟩ := present
  exact ⟨u', usedNow, renamed.renamed_use bound used usedNow complete k loaded⟩

end Rename

end Pass

namespace Session

open Program

-- A class whose code calls one static method under the class that has it and under a subclass.
def callsThrough : List SessionAction :=
  let header (name superName : String) : ClassEvent :=
    .header ⟨name, some superName, [], none, default, 52, [], []⟩
  let method (name descriptor : String) : ClassEvent :=
    .method ⟨name, descriptor, none, .staticFlag, [], []⟩
  [.openBuilder, .visit 0 (header "Base" "java/lang/Object"), .visit 0 (method "f" "()V"),
    .visit 0 .classEnd, .visit 0 (header "Child" "Base"), .visit 0 .classEnd,
    .visit 0 (header "Caller" "java/lang/Object"), .visit 0 (method "main" "([Ljava/lang/String;)V"),
    .visit 0 (.instruction 184 (.call ⟨"Base", "f", "()V", false, .static⟩)),
    .visit 0 (.instruction 184 (.call ⟨"Child", "f", "()V", false, .static⟩)),
    .visit 0 (.instruction 177 .simple), .visit 0 .classEnd]

-- The call that names the class of the method has its new name.
theorem renamed_uses_run_calls_through :
    let p := ready {} callsThrough
    let c : PassContext := { pass := "renamer", program := p }
    let pass := Pass.methodRenamer 0
    let candidate := fun n : Nat => s!"method{n}"
    (p.Bound ∧ p.Complete ∧ pass.RenamesMembers .method candidate ∧ c.program = p) ∧
      Yields pass.run c (fun _ after => ∀ ref u k, p.use? ref = some u → p.findClass? u.owner = some k →
        after.program.findClass? u.owner = some k ∧
          ∃ u', after.program.use? ref = some u' ∧ RenamedUse p after.program candidate ref u u' k) ∧
      (pass.run.run.run c).2.program.use? ⟨⟨5⟩, ⟨6⟩⟩ = some ⟨"Base", "method1", some "()V"⟩ := by
  intro p c pass candidate
  obtain ⟨bound, complete⟩ := bound_complete_ready {} callsThrough (by decide)
  have renames : pass.RenamesMembers .method candidate := .methods 0
  exact ⟨⟨bound, complete, renames, rfl⟩, Pass.renamed_uses_run _ candidate pass c bound complete renames,
    by decide +kernel⟩

def renamedThrough : Except (PassFailure × Pass) (Pass × Nat) × PassContext :=
  (Pass.methodRenamer 0).run.run.run { pass := "renamer", program := ready {} callsThrough }

-- The call that names the subclass asks for the old name and finds nothing.
theorem same_lookup_calls_through :
    let p := ready {} callsThrough
    let q := renamedThrough.2.program
    let u : MemberUse := ⟨"Child", "f", some "()V"⟩
    (p.ExactHierarchy ∧ p.Bound ∧ p.Complete ∧ renamedThrough.1.isOk = true) ∧
      (p.use? ⟨⟨5⟩, ⟨7⟩⟩ = some u ∧ q.use? ⟨⟨5⟩, ⟨7⟩⟩ = some u) ∧
      (p.findClass? "Child" = some ⟨3⟩ ∧ p.Inherited (p.memberIn? u) ⟨3⟩ (.method ⟨2⟩)) ∧
      q.member? (.method ⟨2⟩) = some ⟨⟨1⟩, "method1", some "()V"⟩ ∧
      ∀ t, ¬q.Inherited (q.memberIn? u) ⟨3⟩ t := by
  intro p q u
  have plain : ∀ action ∈ callsThrough, action.PlainLoad := by decide
  have legal := class_names_legal_of_rows ((start {}).run callsThrough).program (by decide)
  obtain ⟨bound, complete⟩ := bound_complete_ready {} callsThrough plain
  have linked : p.ExactHierarchy := exact_hierarchy_ready {} callsThrough plain legal
  have found : p.Inherited (p.memberIn? u) ⟨3⟩ (.method ⟨2⟩) :=
    .taken (d := ⟨1⟩) (by decide +kernel) (by decide +kernel) (.own (by decide +kernel))
  have lost : ∀ t, ¬q.Inherited (q.memberIn? u) ⟨3⟩ t :=
    not_inherited_of_root (d := ⟨1⟩) (by decide +kernel) (by decide +kernel) (by decide +kernel)
      (by decide +kernel)
  exact ⟨⟨linked, bound, complete, by decide +kernel⟩, by decide +kernel, ⟨by decide +kernel, found⟩,
    by decide +kernel, lost⟩

end Session

end JvmEdit
