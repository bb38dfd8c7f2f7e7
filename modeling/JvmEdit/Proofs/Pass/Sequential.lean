import JvmEdit.Libraries.Standard
import JvmEdit.Proofs.Pass.Candidates
set_option autoImplicit false

namespace JvmEdit

namespace PassContext

theorem rename_class_eq (c : PassContext) (new old : String) (id : ClassId)
    (live : c.program.className? id = some old) :
    c.renameClass id new = (c.program.renameClass id new).map fun q =>
      (({ c with program := q } : PassContext).annotate
        (·.annotateClass id (renamedFrom old))).record (.class old) s!"renamed to {new}" := by
  rw [renameClass, live]
  rfl

end PassContext

namespace Pass

open Renamer

def isRenamer : Pass → Bool
  | .classRenamer _ => true
  | .fieldRenamer _ => true
  | .methodRenamer _ => true
  | _ => false

def counting (n : Nat) : Pass → Pass
  | .classRenamer _ => .classRenamer n
  | .fieldRenamer _ => .fieldRenamer n
  | .methodRenamer _ => .methodRenamer n
  | pass => pass

-- The search for a name that a renamer starts at a node: the count so far, and what it tries.
def search? (pass : Pass) (c : PassContext) (node : Node) :
    Option (Nat × (Nat → Except EditError PassContext)) :=
  match pass, node with
  | .classRenamer count, .class id =>
      (c.program.className? id).bind fun name =>
        if isUnhelpful (splitPackage name).2 then
          some (count, fun n => c.renameClass id (classCandidate name n))
        else none
  | .fieldRenamer count, .field id =>
      if (c.program.field? id).any fun f => isUnhelpful f.name then
        some (count, fun n => c.renameField id s!"field{n}")
      else none
  | .methodRenamer count, .method id =>
      if shouldRename c.program id then some (count, fun n => c.renameMethod id s!"method{n}") else none
  | _, _ => none

-- What a pass comes to by its search.
def searched (pass : Pass) (c : PassContext) :
    Option (Nat × (Nat → Except EditError PassContext)) → Except PassFault Pass × PassContext
  | none => (.ok pass, c)
  | some (count, attempt) =>
      (outcome count c (firstFree attempt count (countLimit - count))).map (Except.map pass.counting) id

theorem run_searched (pass : Pass) (count : Nat) (rename : PassContext → String → Except EditError PassContext)
    (candidate : Nat → String) (c : PassContext) :
    (renameNext rename candidate count >>= fun n => pure (pass.counting n) : Work Pass).run.run c =
      pass.searched c (some (count, fun n => rename c (candidate n))) := by
  rw [ExceptT.run_bind, StateT.run_bind, run_rename_next, searched]
  obtain ⟨_ | _, _⟩ := outcome count c (firstFree (fun n => rename c (candidate n)) count (countLimit - count)) <;>
    rfl

theorem run_program_bind {α : Type} (next : Program → Work α) (c : PassContext) :
    (Work.program >>= next).run.run c = (next c.program).run.run c := rfl

theorem run_visit [Libraries] (pass : Pass) (renamer : pass.isRenamer = true) (c : PassContext)
    (node : Node) : (pass.visit node).run.run c = pass.searched c (pass.search? c node) := by
  cases pass with
  | classRenamer count =>
      cases node with
      | «class» id =>
          rw [visit, visitClass, bind_assoc, run_program_bind, search?]
          cases c.program.className? id with
          | none => rfl
          | some name =>
              rw [Option.bind_some]
              by_cases unhelpful : isUnhelpful (splitPackage name).2 = true
              · simp only [if_pos unhelpful]
                exact run_searched (.classRenamer count) count _ _ c
              · simp only [if_neg unhelpful]
                rfl
      | _ => rfl
  | fieldRenamer count =>
      cases node with
      | field id =>
          rw [visit, visitField, bind_assoc, run_program_bind, search?]
          by_cases unhelpful : ((c.program.field? id).any fun f => isUnhelpful f.name) = true
          · simp only [if_pos unhelpful]
            exact run_searched (.fieldRenamer count) count _ _ c
          · simp only [if_neg unhelpful]
            rfl
      | _ => rfl
  | methodRenamer count =>
      cases node with
      | method id =>
          rw [visit, visitMethod, bind_assoc, run_program_bind, search?]
          by_cases should : shouldRename c.program id = true
          · simp only [if_pos should]
            exact run_searched (.methodRenamer count) count _ _ c
          · simp only [if_neg should]
            rfl
      | _ => rfl
  | _ => cases renamer

-- A search begins at a loaded entity, whose new name it tries.
inductive Sought (c : PassContext) : Pass → Node → Nat → (Nat → Except EditError PassContext) → Prop
  | «class» (count : Nat) (id : ClassId) (name : String) (live : c.program.className? id = some name) :
      Sought c (.classRenamer count) (.class id) count fun n => c.renameClass id (classCandidate name n)
  | field (count : Nat) (id : FieldId) (f : Field) (owner : String) (live : c.program.field? id = some f)
      (loaded : c.program.className? f.owner = some owner) :
      Sought c (.fieldRenamer count) (.field id) count fun n => c.renameField id s!"field{n}"
  | method (count : Nat) (id : MethodId) (m : Method) (owner : String) (live : c.program.method? id = some m)
      (loaded : c.program.className? m.owner = some owner) :
      Sought c (.methodRenamer count) (.method id) count fun n => c.renameMethod id s!"method{n}"

theorem search?_sought (pass : Pass) (c : PassContext) (node : Node) (count : Nat)
    (attempt : Nat → Except EditError PassContext) (indexed : c.program.Indexed)
    (sought : pass.search? c node = some (count, attempt)) : Sought c pass node count attempt := by
  cases pass with
  | classRenamer start =>
      cases node with
      | «class» id =>
          obtain ⟨name, live, rest⟩ := Option.bind_eq_some_iff.mp sought
          obtain ⟨_, isSearch⟩ := Option.ite_none_right_eq_some.mp rest
          obtain ⟨rfl, rfl⟩ := Prod.mk.inj (Option.some.inj isSearch)
          exact .class start id name live
      | _ => cases sought
  | fieldRenamer start =>
      cases node with
      | field id =>
          obtain ⟨unhelpful, isSearch⟩ := Option.ite_none_right_eq_some.mp sought
          obtain ⟨rfl, rfl⟩ := Prod.mk.inj (Option.some.inj isSearch)
          obtain ⟨f, live, _⟩ := (Option.any_eq_true ..).mp unhelpful
          obtain ⟨owner, loaded⟩ := indexed.is_owned.fields id f live
          exact .field start id f owner live loaded
      | _ => cases sought
  | methodRenamer start =>
      cases node with
      | method id =>
          obtain ⟨should, isSearch⟩ := Option.ite_none_right_eq_some.mp sought
          obtain ⟨rfl, rfl⟩ := Prod.mk.inj (Option.some.inj isSearch)
          simp only [shouldRename, Bool.and_eq_true] at should
          obtain ⟨m, live, _⟩ := (Option.any_eq_true ..).mp should.1.1
          obtain ⟨owner, loaded⟩ := indexed.is_owned.methods id m live
          exact .method start id m owner live loaded
      | _ => cases sought
  | _ => cases sought

section Settled

variable (pass : Pass) (c : PassContext) (node : Node) (count : Nat)
  (attempt : Nat → Except EditError PassContext) (indexed : c.program.Indexed)

include indexed

theorem search?_settles (owner : Owner) (one : pass.metadata.kind.expand c.program owner = [node])
    (sought : pass.search? c node = some (count, attempt)) :
    Settles attempt count c.program.nameOccurrences.length := by
  cases search?_sought pass c node count attempt indexed sought with
  | «class» count id name live =>
      have plain : Undotted name := by
        obtain ⟨d, found, rfl⟩ := Program.class_name_live _ id name live
        exact indexed.plainClass id d.naming (congrArg (Option.map Class.naming) found)
      refine settles_edit count _ _ _ (fun new => c.rename_class_eq new name id live)
        ((splitPackage name).1 ++ "Class") _ ?_ ?_
      · exact fun n key => c.program.rename_class_taken _ key indexed id name live
          (undotted_class_candidate name n plain) (spellable_class_candidate name n)
      · exact fun n => c.program.rename_class_refused _ id name live
  | field count id f name live loaded =>
      refine settles_edit count _ _ _ (fun new => c.rename_field_eq new name id f live loaded) "field" _ ?_ ?_
      · exact fun n key => c.program.rename_field_taken _ key indexed id
          (undotted_numbered "field" (by decide) n)
      · exact fun n => c.program.rename_field_refused id _ f indexed live
  | method count id m name live loaded =>
      have usual : m.isConstructor = false := by
        obtain ⟨_, m', _, isNode, live', usual⟩ := NodeKind.method_of_one c.program owner _ one
        cases isNode
        cases live.symm.trans live'
        exact usual
      refine settles_edit count _ _ _ (fun new => c.rename_method_eq new name id m live loaded) "method" _ ?_ ?_
      · exact fun n key => c.program.rename_method_taken _ key indexed id
          (undotted_numbered "method" (by decide) n)
      · exact fun n => c.program.rename_method_refused id _ m indexed live usual

end Settled

-- What a renamer is to reach for an owner: a name that says something.
def Settled (pass : Pass) (p : Program) (owner : Owner) : Prop :=
  match pass, owner with
  | .classRenamer _, .class id => ∀ name, p.className? id = some name → isUnhelpful (splitPackage name).2 = false
  | .fieldRenamer _, .field id => ∀ f, p.fieldNaming? id = some f → isUnhelpful f.name = false
  | _, _ => True

-- What the steps of a renamer keep.
structure Carries (pass : Pass) (p q : Program) : Prop where
  indexed : q.Indexed
  extent : q.nameOccurrences.length = p.nameOccurrences.length
  owners : pass.metadata.kind.owners q = pass.metadata.kind.owners p
  settled : ∀ owner, pass.Settled p owner → pass.Settled q owner

namespace Carries

theorem refl (pass : Pass) (p : Program) (indexed : p.Indexed) : Carries pass p p :=
  ⟨indexed, rfl, rfl, fun _ settled => settled⟩

variable {pass : Pass} {p q r : Program}

theorem trans (first : Carries pass p q) (second : Carries pass q r) : Carries pass p r :=
  ⟨second.indexed, second.extent.trans first.extent, second.owners.trans first.owners,
    fun owner settled => second.settled owner (first.settled owner settled)⟩

theorem of_same_names (same : Program.SameNames p q) (indexed : p.Indexed) : Carries pass p q where
  indexed := Program.indexed_same_names p q same indexed
  extent := congrArg List.length (Program.name_occurrences_same_names same)
  owners := by
    cases pass.metadata.kind <;>
      simp only [NodeKind.owners, same.classIds, same.fieldIds, same.methodIds]
  settled := by
    have classes : q.className? = p.className? := funext same.class_name
    have fields : q.fieldNaming? = p.fieldNaming? := funext same.fields
    intro owner settled
    unfold Settled at settled ⊢
    split at settled
    · rwa [classes]
    · rwa [fields]
    · trivial

end Carries

section Steps

variable (count n : Nat) (p q : Program) (indexed : p.Indexed) (limited : n ≤ countLimit)

include indexed limited

theorem carries_rename_class (id : ClassId) (name : String) (live : p.className? id = some name)
    (done : p.renameClass id (classCandidate name n) = .ok q) :
    Carries (.classRenamer count) p q ∧ (classRenamer count).Settled q (.class id) := by
  have helpful := helpful_class_candidate name n limited
  have plain : Undotted name := by
    obtain ⟨d, found, rfl⟩ := Program.class_name_live _ id name live
    exact indexed.plainClass id d.naming (congrArg (Option.map Class.naming) found)
  have indexedNow := Program.indexed_rename_class p q id _ indexed (undotted_class_candidate name n plain) done
  have extent := Program.length_name_occurrences_rename_class indexed id name _ live
    (spellable_class_candidate name n) done
  have names : q.classIds = p.classIds ∧
      ∀ i, q.className? i = if i = id then some (classCandidate name n) else p.className? i := by
    obtain ⟨old, live', outcome⟩ := Program.rename_class_ok p q id _ indexed.is_owned
      (Table.keys_nodup _ indexed.classOrder) (Table.keys_nodup _ indexed.fieldOrder)
      (Table.keys_nodup _ indexed.methodOrder) done
    cases live.symm.trans live'
    rcases outcome with ⟨same, rfl⟩ | ⟨_, _, _, rfl⟩
    · refine ⟨rfl, fun i => ?_⟩
      split
      · rename_i isId
        rw [isId, live, ← same]
      · rfl
    · exact ⟨Program.class_ids_renamed_to p id _, Program.class_name?_renamed_to p id ⟨name, _⟩ live⟩
  refine ⟨⟨indexedNow, extent, congrArg (List.map Owner.class) names.1, fun owner settled => ?_⟩, ?_⟩
  · cases owner with
    | «class» i =>
        intro other found
        rw [names.2] at found
        split at found
        · cases found
          exact helpful
        · exact settled other found
    | _ => trivial
  · intro other found
    rw [names.2, if_pos rfl] at found
    cases found
    exact helpful

theorem carries_rename_field (id : FieldId) (f : Field) (live : p.field? id = some f)
    (done : p.renameField id s!"field{n}" = .ok q) :
    Carries (.fieldRenamer count) p q ∧ (fieldRenamer count).Settled q (.field id) := by
  have helpful : isUnhelpful s!"field{n}" = false := is_unhelpful_numbered "field" n (by decide) (by decide) limited
  have indexedNow := Program.indexed_rename_field p q id _ indexed (undotted_numbered "field" (by decide) n) done
  have extent := Program.length_name_occurrences_rename_field id _ done
  have names : q.fieldIds = p.fieldIds ∧ (∀ g, q.fieldNaming? id = some g → g.name = s!"field{n}") ∧
      ∀ i, i ≠ id → q.fieldNaming? i = p.fieldNaming? i := by
    obtain ⟨f', live', ⟨same, rfl⟩ | ⟨owner, _, _, _, _, _, rfl⟩⟩ := Program.rename_field_ok p q id _ done
    · cases live.symm.trans live'
      refine ⟨rfl, fun g found => ?_, fun _ _ => rfl⟩
      rw [Program.fieldNaming?, live] at found
      cases found
      exact same
    · have kept := Program.same_names_update_all (p.relabelField id owner f'.name s!"field{n}") f'.references
        (Program.mapFieldUse fun use => { use with name := s!"field{n}" })
      refine ⟨kept.fieldIds.trans (Table.keys_modify _ _ _), fun g found => ?_, fun i other => ?_⟩
      · rw [kept.fields, Program.field_naming?_relabel_field, if_pos rfl] at found
        obtain ⟨_, _, rfl⟩ := Option.map_eq_some_iff.mp found
        rfl
      · rw [kept.fields, Program.field_naming?_relabel_field, if_neg (Ne.symm other)]
  obtain ⟨ids, named, others⟩ := names
  refine ⟨⟨indexedNow, extent, congrArg (List.map Owner.field) ids, fun owner settled => ?_⟩, ?_⟩
  · cases owner with
    | field i =>
        intro g found
        by_cases isId : i = id
        · subst isId
          rw [named g found]
          exact helpful
        · exact settled g ((others i isId).symm.trans found)
    | _ => trivial
  · intro g found
    rw [named g found]
    exact helpful

omit limited in
theorem carries_rename_method (id : MethodId) (done : p.renameMethod id s!"method{n}" = .ok q) :
    Carries (.methodRenamer count) p q := by
  refine ⟨?_, Program.length_name_occurrences_rename_method id _ done, ?_, fun owner _ => trivial⟩
  · exact Program.indexed_rename_method p q id _ indexed (undotted_numbered "method" (by decide) n) done
  · obtain ⟨m, _, _, ⟨_, rfl⟩ | ⟨owner, _, _, _, rfl⟩⟩ := Program.rename_method_ok p q id _ done
    · rfl
    · have kept := Program.same_names_update_all (p.relabelMethod id owner m.name s!"method{n}" m.descriptor)
        m.invocations (Program.mapCall fun call => { call with name := s!"method{n}" })
      exact congrArg (List.map Owner.method) (kept.methodIds.trans (Table.keys_modify _ _ _))

end Steps

theorem same_names_marked (c c' : PassContext) (edit : Except EditError Program) (mark : Program → Program)
    (target : ChangeTarget) (message : String) (marks : ∀ q, Program.SameNames q (mark q))
    (done : edit.map (fun q =>
      (({ c with program := q } : PassContext).annotate mark).record target message) = .ok c') :
    ∃ q, edit = .ok q ∧ Program.SameNames q c'.program := by
  cases edit with
  | error e => cases done
  | ok q =>
      cases done
      refine ⟨q, rfl, ?_⟩
      rcases PassContext.program_marked c q mark target message with same | same
      · rw [same]
        exact .refl q
      · rw [same]
        exact marks q

section Visit

variable (pass : Pass) (c : PassContext) (node : Node) (owner : Owner)

theorem owner_of_class (p : Program) (id : ClassId) (one : NodeKind.class.expand p owner = [.class id]) :
    owner = .class id := by
  cases owner with
  | «class» i =>
      rw [NodeKind.expand] at one
      split at one
      · cases one
        rfl
      · cases one
  | field i => cases one
  | method i =>
      simp only [NodeKind.expand, NodeKind.methodNodes] at one
      split at one <;> cases one

theorem owner_of_field (p : Program) (id : FieldId) (one : NodeKind.field.expand p owner = [.field id]) :
    owner = .field id := by
  cases owner with
  | «class» i => cases one
  | field i =>
      rw [NodeKind.expand] at one
      split at one
      · cases one
        rfl
      · cases one
  | method i =>
      simp only [NodeKind.expand, NodeKind.methodNodes] at one
      split at one <;> cases one

theorem search?_step (indexed : c.program.Indexed) (count n : Nat)
    (attempt : Nat → Except EditError PassContext) (c' : PassContext)
    (sought : pass.search? c node = some (count, attempt)) (limited : n ≤ countLimit)
    (done : attempt n = .ok c') : Carries pass c.program c'.program ∧
      (pass.metadata.kind.expand c.program owner = [node] → pass.Settled c'.program owner) := by
  cases search?_sought pass c node count attempt indexed sought with
  | «class» count id name live =>
      dsimp only at done
      rw [c.rename_class_eq _ name id live] at done
      obtain ⟨q, renamed, marked⟩ := same_names_marked c c' _
        (·.annotateClass id (PassContext.renamedFrom name)) _ _
        (fun q => Program.same_names_update_class q id _ fun _ => rfl) done
      obtain ⟨carried, settled⟩ := carries_rename_class count n _ q indexed limited id name live renamed
      have after : Carries (.classRenamer count) q c'.program := .of_same_names marked carried.indexed
      refine ⟨carried.trans after, fun one => ?_⟩
      rw [owner_of_class owner c.program id one]
      exact after.settled _ settled
  | field count id f name live loaded =>
      dsimp only at done
      rw [c.rename_field_eq _ name id f live loaded] at done
      obtain ⟨q, renamed, marked⟩ := same_names_marked c c' _
        (·.annotateField id (PassContext.renamedFrom f.name)) _ _
        (fun q => Program.same_names_update_field q id _ fun _ => rfl) done
      obtain ⟨carried, settled⟩ := carries_rename_field count n _ q indexed limited id f live renamed
      have after : Carries (.fieldRenamer count) q c'.program := .of_same_names marked carried.indexed
      refine ⟨carried.trans after, fun one => ?_⟩
      rw [owner_of_field owner c.program id one]
      exact after.settled _ settled
  | method count id m name live loaded =>
      dsimp only at done
      rw [c.rename_method_eq _ name id m live loaded] at done
      obtain ⟨q, renamed, marked⟩ := same_names_marked c c' _
        (·.annotateMethod id (PassContext.renamedFrom m.name)) _ _
        (fun q => Program.same_names_update_method q id _ fun _ => rfl) done
      have carried := carries_rename_method count n _ q indexed id renamed
      exact ⟨carried.trans (.of_same_names marked carried.indexed), fun _ => trivial⟩

theorem settled_of_idle (idle : ∀ node, pass.metadata.kind.expand c.program owner = [node] →
    pass.search? c node = none) : pass.Settled c.program owner := by
  unfold Settled
  split
  · rename_i count id
    intro name live
    have one : NodeKind.class.expand c.program (.class id) = [.class id] := by
      obtain ⟨d, found, _⟩ := Program.class_name_live _ id name live
      simp [NodeKind.expand, found]
    have none := idle _ one
    rw [search?, live, Option.bind_some] at none
    simpa using none
  · rename_i count id
    intro f named
    obtain ⟨g, live, rfl⟩ := Option.map_eq_some_iff.mp named
    have one : NodeKind.field.expand c.program (.field id) = [.field id] := by
      simp [NodeKind.expand, live]
    have none := idle _ one
    rw [search?, live] at none
    change isUnhelpful g.name = false
    simpa using none
  · trivial

end Visit

-- The state in which a run has dealt with the first owners.
def Reaches [Libraries] (pass : Pass) (c : PassContext) (done : List Owner) (pass' : Pass)
    (now : PassContext) : Prop :=
  ∃ visited, (done.foldlM (visitOwner pass.metadata.id pass.metadata.kind) (pass, 0)).run.run c =
    (.ok (pass', visited), now)

-- The states in which a run comes to a node.
def Visits [Libraries] (pass : Pass) (c : PassContext) (pass' : Pass) (now : PassContext)
    (node : Node) : Prop :=
  ∃ done owner rest, done ++ owner :: rest = pass.metadata.kind.owners c.program ∧
    pass.Reaches c done pass' now ∧ pass.metadata.kind.expand now.program owner = [node]

-- The count does not reach its limit before the search ends, at any node of the run.
def CountSuffices [Libraries] (pass : Pass) (c : PassContext) : Prop :=
  ∀ pass' now node count attempt, pass.Visits c pass' now node →
    pass'.search? now node = some (count, attempt) →
      (firstFree attempt count (countLimit - count)).isSome = true

def count : Pass → Nat
  | .classRenamer n => n
  | .fieldRenamer n => n
  | .methodRenamer n => n
  | _ => 0

section Counting

variable (pass : Pass) (n : Nat)

theorem metadata_counting : (pass.counting n).metadata = pass.metadata := by
  cases pass <;> rfl

theorem is_renamer_counting : (pass.counting n).isRenamer = pass.isRenamer := by
  cases pass <;> rfl

theorem counting_counting (m : Nat) : (pass.counting m).counting n = pass.counting n := by
  cases pass <;> rfl

theorem counting_count : pass.counting pass.count = pass := by
  cases pass <;> rfl

theorem count_counting (renamer : pass.isRenamer = true) : (pass.counting n).count = n := by
  cases pass <;> first | rfl | cases renamer

theorem finish_renamer [Libraries] (renamer : pass.isRenamer = true) : pass.finish = pure pass := by
  cases pass <;> first | rfl | cases renamer

theorem settled_counting (p : Program) (owner : Owner) :
    (pass.counting n).Settled p owner ↔ pass.Settled p owner := by
  cases pass <;> cases owner <;> exact Iff.rfl

theorem carries_counting (p q : Program) (carries : Carries (pass.counting n) p q) : Carries pass p q := by
  refine ⟨carries.indexed, carries.extent, ?_, fun owner settled => ?_⟩
  · have owners := carries.owners
    rwa [metadata_counting] at owners
  · exact (pass.settled_counting n q owner).mp
      (carries.settled owner ((pass.settled_counting n p owner).mpr settled))

theorem search?_count (c : PassContext) (node : Node) (count : Nat)
    (attempt : Nat → Except EditError PassContext) (sought : pass.search? c node = some (count, attempt)) :
    count = pass.count := by
  cases pass <;> cases node <;> try cases sought
  case classRenamer.class id =>
    obtain ⟨name, _, rest⟩ := Option.bind_eq_some_iff.mp sought
    obtain ⟨_, isSearch⟩ := Option.ite_none_right_eq_some.mp rest
    exact (Prod.mk.inj (Option.some.inj isSearch)).1.symm
  case fieldRenamer.field id =>
    obtain ⟨_, isSearch⟩ := Option.ite_none_right_eq_some.mp sought
    exact (Prod.mk.inj (Option.some.inj isSearch)).1.symm
  case methodRenamer.method id =>
    obtain ⟨_, isSearch⟩ := Option.ite_none_right_eq_some.mp sought
    exact (Prod.mk.inj (Option.some.inj isSearch)).1.symm

end Counting

-- A renamer on its way: how far the count has come after so many visits, and what is carried over.
structure Sequel (start : Pass) (p : Program) (visits : Nat) (pass : Pass) (q : Program) : Prop where
  same : pass = start.counting pass.count
  limit : pass.count ≤ start.count + visits * (p.nameOccurrences.length + 1)
  carries : Carries start p q

section Run

variable (start : Pass) (renamer : start.isRenamer = true) (p : Program)

theorem Sequel.begins (indexed : p.Indexed) : Sequel start p 0 start p where
  same := start.counting_count.symm
  limit := Nat.le_add_right _ _
  carries := .refl start p indexed

theorem Sequel.later {start : Pass} {p : Program} {visits : Nat} {pass : Pass} {q : Program}
    (so : Sequel start p visits pass q) : Sequel start p (visits + 1) pass q where
  same := so.same
  limit := Nat.le_trans so.limit (Nat.add_le_add_left (Nat.mul_le_mul_right _ (Nat.le_succ visits)) _)
  carries := so.carries

include renamer

theorem yields_visit [Libraries] (visits : Nat) (pass : Pass) (c : PassContext) (owner : Owner)
    (node : Node)
    (so : Sequel start p visits pass c.program) (one : start.metadata.kind.expand c.program owner = [node]) :
    Yields (pass.visit node) c fun pass' after => Sequel start p (visits + 1) pass' after.program ∧
      Carries start c.program after.program ∧
      ((∀ count attempt, pass.search? c node = some (count, attempt) →
        (firstFree attempt count (countLimit - count)).isSome = true) → start.Settled after.program owner) := by
  obtain ⟨k, rfl⟩ : ∃ k, pass = start.counting k := ⟨_, so.same⟩
  have indexed := so.carries.indexed
  have isRenamer : (start.counting k).isRenamer = true := (start.is_renamer_counting k).trans renamer
  have isOne : (start.counting k).metadata.kind.expand c.program owner = [node] := by
    rwa [metadata_counting]
  have stays : Sequel start p (visits + 1) (start.counting k) c.program ∧
      Carries start c.program c.program := ⟨so.later, .refl start c.program indexed⟩
  have visit := run_visit (start.counting k) isRenamer c node
  cases sought : (start.counting k).search? c node with
  | none =>
      rw [sought] at visit
      refine ⟨_, _, visit, stays.1, stays.2, fun _ => ?_⟩
      refine (start.settled_counting k _ owner).mp (settled_of_idle _ c owner fun node' one' => ?_)
      obtain rfl : node' = node := by simpa using one'.symm.trans isOne
      exact sought
  | some search =>
      obtain ⟨count, attempt⟩ := search
      have settles := search?_settles _ c node count attempt indexed owner isOne sought
      obtain rfl := search?_count _ c node count attempt sought
      rw [sought, searched] at visit
      cases found : firstFree attempt (start.counting k).count (countLimit - (start.counting k).count) with
      | none =>
          rw [found] at visit
          refine ⟨(start.counting k).counting _, c, visit, ?_⟩
          rw [(start.counting k).counting_count]
          refine ⟨stays.1, stays.2, fun ends => ?_⟩
          have isSome := ends _ attempt rfl
          rw [found] at isSome
          cases isSome
      | some first =>
          obtain ⟨n, result⟩ := first
          obtain ⟨near, c', rfl, done⟩ := first_free_settled attempt _ _ _ n settles result found
          obtain ⟨_, range, _⟩ := first_free_some attempt _ _ n _ found
          rw [found] at visit
          obtain ⟨carries, settled⟩ := search?_step _ c node owner indexed _ n attempt c' sought (by omega) done
          have carried := start.carries_counting k _ _ carries
          refine ⟨(start.counting k).counting n, c', visit, ?_⟩
          rw [start.counting_counting n k]
          refine ⟨⟨?_, ?_, so.carries.trans carried⟩, carried, fun _ => ?_⟩
          · rw [start.count_counting n renamer]
          · have limit := so.limit
            have extent := so.carries.extent
            rw [start.count_counting n renamer, Nat.add_mul, Nat.one_mul]
            omega
          · exact (start.settled_counting k _ owner).mp (settled isOne)

theorem yields_visit_owner [Libraries] (visits : Nat) (pass : Pass) (visited : Nat) (c : PassContext)
    (owner : Owner) (so : Sequel start p visits pass c.program) :
    Yields (visitOwner start.metadata.id start.metadata.kind (pass, visited) owner) c fun state after =>
      Sequel start p (visits + 1) state.1 after.program ∧ Carries start c.program after.program ∧
      ((∀ node count attempt, start.metadata.kind.expand c.program owner = [node] →
        pass.search? c node = some (count, attempt) →
          (firstFree attempt count (countLimit - count)).isSome = true) → start.Settled after.program owner) := by
  have single : (start.metadata.kind.expand c.program owner).length ≤ 1 := by
    cases start with
    | classRenamer n => exact NodeKind.single_class c.program owner
    | fieldRenamer n => exact NodeKind.single_field c.program owner
    | methodRenamer n => exact NodeKind.single_method c.program owner
    | _ => cases renamer
  apply yields_single _ _ (pass, visited) owner c (fun pass' after =>
    Sequel start p (visits + 1) pass' after.program ∧ Carries start c.program after.program ∧
      ((∀ node count attempt, start.metadata.kind.expand c.program owner = [node] →
        pass.search? c node = some (count, attempt) →
          (firstFree attempt count (countLimit - count)).isSome = true) → start.Settled after.program owner)) single
  · intro none
    refine ⟨so.later, .refl start c.program so.carries.indexed, fun _ => ?_⟩
    apply settled_of_idle start c owner
    intro node one
    cases none.symm.trans one
  · intro node one
    apply yields_mono _ c _ _ (yields_visit start renamer p visits pass c owner node so one)
    rintro pass' after ⟨sequel, carries, settled⟩
    exact ⟨sequel, carries, fun ends => settled fun count attempt => ends node count attempt one⟩

theorem yields_owners [Libraries] (c : PassContext) (indexed : c.program.Indexed)
    (owners : List Owner) :
    Yields (owners.foldlM (visitOwner start.metadata.id start.metadata.kind) (start, 0)) c fun state after =>
      Sequel start c.program owners.length state.1 after.program := by
  have begins := Sequel.begins start c.program indexed
  apply yields_foldl_m_reached _ (fun done (state : Pass × Nat) after =>
    Sequel start c.program done.length state.1 after.program) owners _ c begins
  intro done owner rest state now _ _ so
  rw [List.length_append]
  exact yields_mono _ now _ _ (yields_visit_owner start renamer c.program done.length state.1 state.2 now owner so)
    fun _ _ reached => reached.1

theorem sequel_of_reaches [Libraries] (c : PassContext) (indexed : c.program.Indexed)
    (done : List Owner) (pass : Pass)
    (now : PassContext) (reached : start.Reaches c done pass now) :
    Sequel start c.program done.length pass now.program := by
  obtain ⟨visited, ran⟩ := reached
  obtain ⟨state, now', ran', so⟩ := yields_owners start renamer c indexed done
  rw [ran] at ran'
  cases ran'
  exact so

theorem count_suffices_of_room [Libraries] (c : PassContext) (indexed : c.program.Indexed)
    (room : start.count + (start.metadata.kind.owners c.program).length * (c.program.nameOccurrences.length + 1) ≤
      countLimit) : start.CountSuffices c := by
  rintro pass now node count attempt ⟨done, owner, rest, listed, reached, one⟩ sought
  have so := sequel_of_reaches start renamer c indexed done pass now reached
  have kind : pass.metadata = start.metadata := by rw [so.same, metadata_counting]
  obtain rfl := search?_count pass now node count attempt sought
  have settles := search?_settles pass now node _ attempt so.carries.indexed owner (by rwa [kind]) sought
  apply first_free_of_settles attempt _ _ _ settles
  have length := congrArg List.length listed
  rw [List.length_append, List.length_cons] at length
  have more : (done.length + 1) * (c.program.nameOccurrences.length + 1) ≤
      (start.metadata.kind.owners c.program).length * (c.program.nameOccurrences.length + 1) :=
    Nat.mul_le_mul_right _ (by omega)
  rw [Nat.add_mul, Nat.one_mul] at more
  have limit := so.limit
  have extent := so.carries.extent
  omega

theorem yields_settled [Libraries] (c : PassContext) (indexed : c.program.Indexed)
    (enough : start.CountSuffices c) :
    Yields start.run c fun _ after => Carries start c.program after.program ∧
      ∀ owner ∈ start.metadata.kind.owners c.program, start.Settled after.program owner := by
  have begins := Sequel.begins start c.program indexed
  let reached (done : List Owner) (state : Pass × Nat) (after : PassContext) : Prop :=
    Sequel start c.program done.length state.1 after.program ∧
      ∀ owner ∈ done, start.Settled after.program owner
  have visits : Yields ((start.metadata.kind.owners c.program).foldlM
      (visitOwner start.metadata.id start.metadata.kind) (start, 0)) c
      (reached (start.metadata.kind.owners c.program)) := by
    apply yields_foldl_m_reached _ reached _ _ c ⟨begins, by simp⟩
    rintro done owner rest ⟨pass, visited⟩ now listed ran ⟨so, settled⟩
    apply yields_mono _ now _ _ (yields_visit_owner start renamer c.program done.length pass visited now owner so)
    rintro state after ⟨sequel, carries, settles⟩
    refine ⟨by rwa [List.length_append], fun other member => ?_⟩
    rcases List.mem_append.mp member with earlier | isLast
    · exact carries.settled other (settled other earlier)
    · obtain rfl := List.mem_singleton.mp isLast
      exact settles fun node count attempt one =>
        enough pass now node count attempt ⟨done, other, rest, listed, ⟨visited, ran⟩, one⟩
  apply yields_get_bind
  apply yields_bind _ _ c _ _ visits
  rintro ⟨pass, visited⟩ after ⟨so, settled⟩
  have isRenamer : pass.isRenamer = true := by
    rw [show pass = start.counting pass.count from so.same, is_renamer_counting, renamer]
  apply yields_counted _ none _ _ _ after fun _ now => Carries start c.program now.program ∧
    ∀ owner ∈ start.metadata.kind.owners c.program, start.Settled now.program owner
  rw [finish_renamer pass isRenamer]
  exact yields_pure pass after _ ⟨so.carries, settled⟩

omit renamer in
theorem settled_of_listed (q : Program) (settled : ∀ owner ∈ start.metadata.kind.owners q, start.Settled q owner)
    (owner : Owner) : start.Settled q owner := by
  unfold Settled
  split
  · rename_i count id
    intro name live
    obtain ⟨d, found, _⟩ := Program.class_name_live _ id name live
    have member : id ∈ q.classIds := (Table.mem_keys_iff _ _).mpr ⟨d, found⟩
    exact settled (.class id) (List.mem_map_of_mem member) name live
  · rename_i count id
    intro f named
    obtain ⟨g, found, _⟩ := Option.map_eq_some_iff.mp named
    have member : id ∈ q.fieldIds := (Table.mem_keys_iff _ _).mpr ⟨g, found⟩
    exact settled (.field id) (List.mem_map_of_mem member) f named
  · trivial

omit renamer in
theorem search?_of_settled (c : PassContext) (settled : ∀ owner, start.Settled c.program owner)
    (other : start.metadata.kind ≠ .method) (node : Node) : start.search? c node = none := by
  unfold search?
  split
  · rename_i count id
    cases live : c.program.className? id with
    | none => rfl
    | some name =>
        have helpful : isUnhelpful (splitPackage name).2 = false := settled (.class id) name live
        simp [helpful]
  · rename_i count id
    cases live : c.program.field? id with
    | none => rfl
    | some f =>
        have helpful : isUnhelpful f.name = false :=
          settled (.field id) f.naming (congrArg (Option.map Field.naming) live)
        simp [helpful]
  · exact absurd rfl other
  · rfl

theorem yields_idle [Libraries] (c : PassContext) (settled : ∀ owner, start.Settled c.program owner)
    (other : start.metadata.kind ≠ .method) : Yields start.run c fun _ after => after = c := by
  have ran : Yields start.run c fun ran after => ran.1 = start ∧ after = c := by
    apply yields_run start c (fun pass now => pass = start ∧ now = c) ⟨rfl, rfl⟩
    · rintro _ _ node ⟨rfl, rfl⟩
      rename_i pass now
      have visit := run_visit pass renamer now node
      rw [search?_of_settled pass now settled other node] at visit
      exact ⟨pass, now, visit, rfl, rfl⟩
    · rintro _ _ ⟨rfl, rfl⟩
      rename_i pass now
      rw [finish_renamer pass renamer]
      exact yields_pure pass now _ ⟨rfl, rfl⟩
  exact yields_mono _ c _ _ ran fun _ _ so => so.2

end Run

-- A search for a name meets no more taken names than occur in the program, and then succeeds. As long
-- as the count suffices, a run of the class renamer leaves no class with a simple name that says nothing,
-- one of the field renamer no such field, and another run of it changes nothing.
theorem renamers_settle [Libraries] (pass : Pass) (c : PassContext) (renamer : pass.isRenamer = true)
    (indexed : c.program.Indexed) :
    (∀ pass' now node count attempt, pass.Visits c pass' now node →
      pass'.search? now node = some (count, attempt) →
        Settles attempt count c.program.nameOccurrences.length) ∧
    (pass.CountSuffices c → Yields pass.run c fun _ after =>
      (pass.metadata.kind = .class → ∀ id name, after.program.className? id = some name →
        isUnhelpful (splitPackage name).2 = false) ∧
      (pass.metadata.kind = .field → ∀ id f, after.program.field? id = some f → isUnhelpful f.name = false) ∧
      (pass.metadata.kind ≠ .method → ∀ n again, again.program = after.program →
        Yields (pass.counting n).run again fun _ later => later = again)) := by
  refine ⟨?_, fun enough => ?_⟩
  · rintro pass' now node count attempt ⟨done, owner, rest, listed, reached, one⟩ sought
    have so := sequel_of_reaches pass renamer c indexed done pass' now reached
    have kind : pass'.metadata = pass.metadata := by rw [so.same, metadata_counting]
    rw [← so.carries.extent]
    exact search?_settles pass' now node count attempt so.carries.indexed owner (by rwa [kind]) sought
  · apply yields_mono _ c _ _ (yields_settled pass renamer c indexed enough)
    rintro _ after ⟨carries, settled⟩
    rw [← carries.owners] at settled
    have all := settled_of_listed pass after.program settled
    refine ⟨fun kind id name live => ?_, fun kind id f live => ?_, fun other n again same => ?_⟩
    · cases pass <;> cases kind <;> try cases renamer
      exact all (.class id) name live
    · cases pass <;> cases kind <;> try cases renamer
      exact all (.field id) f.naming (congrArg (Option.map Field.naming) live)
    · apply yields_idle (pass.counting n) (by rw [is_renamer_counting, renamer]) again
      · intro owner
        rw [same]
        exact (pass.settled_counting n _ owner).mpr (all owner)
      · rwa [metadata_counting]

end Pass

namespace Session

-- A class with a short name. Another class has the first of its new names, and with the second one its
-- two methods would fall together.
def crowded : List SessionAction :=
  let header (name : String) : ClassEvent := .header ⟨name, some "java/lang/Object", [], none, default, 52, [], []⟩
  let method (descriptor : String) : ClassEvent := .method ⟨"m", descriptor, none, default, [], []⟩
  [.openBuilder, .visit 0 (header "a/b"), .visit 0 (method "(La/b;)V"), .visit 0 (method "(La/Class2;)V"),
    .visit 0 .classEnd, .visit 0 (header "a/Class1"), .visit 0 (.field ⟨"x", "La/b;", none, default, none, []⟩),
    .visit 0 .classEnd]

theorem renamers_settle_crowded :
    let c : PassContext := { pass := "class-renamer", program := ((start {}).run crowded).program }
    let pass := Pass.classRenamer 0
    (pass.isRenamer = true ∧ c.program.Indexed ∧ pass.CountSuffices c) ∧
      Renamer.Settles (fun n => c.renameClass ⟨1⟩ (Renamer.classCandidate "a/b" n)) 0 7 ∧
      (pass.run.run.run c).2.program.className? ⟨1⟩ = some "a/Class3" ∧
      Yields pass.run c fun _ after =>
        (∀ id name, after.program.className? id = some name →
          Renamer.isUnhelpful (Renamer.splitPackage name).2 = false) ∧
        ∀ n again, again.program = after.program →
          Yields (Pass.classRenamer n).run again fun _ later => later = again := by
  intro c pass
  have indexed : c.program.Indexed := indexed_run _ crowded (indexed_start {}) (by decide)
  have enough : pass.CountSuffices c := Pass.count_suffices_of_room pass rfl c indexed (by decide +kernel)
  obtain ⟨settles, runs⟩ := Pass.renamers_settle pass c rfl indexed
  refine ⟨⟨rfl, indexed, enough⟩, ?_, by decide +kernel, ?_⟩
  · have occurrences : c.program.nameOccurrences.length = 7 := by decide +kernel
    have live : c.program.className? ⟨1⟩ = some "a/b" := by decide +kernel
    rw [← occurrences]
    apply settles pass c (.class ⟨1⟩)
    · exact ⟨[], .class ⟨1⟩, [.class ⟨4⟩], by decide +kernel, ⟨0, rfl⟩, by decide +kernel⟩
    · rw [show pass = Pass.classRenamer 0 from rfl, Pass.search?, live, Option.bind_some]
      exact if_pos (by decide +kernel)
  · apply yields_mono _ c _ _ (runs enough)
    exact fun _ after reached => ⟨reached.1 rfl, reached.2.2 (by decide)⟩

end Session

end JvmEdit
