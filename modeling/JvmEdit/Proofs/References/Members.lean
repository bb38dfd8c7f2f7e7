import JvmEdit.Proofs.Hierarchy.Inheritance
import JvmEdit.Proofs.References.Fallback
import JvmEdit.Proofs.References.Relocation
import JvmEdit.Proofs.References.Touched
set_option autoImplicit false

namespace JvmEdit

-- Fields go by their name alone.
structure Member where
  owner : ClassId
  name : String
  descriptor : Option String
  deriving DecidableEq, Repr

structure MemberUse where
  owner : String
  name : String
  descriptor : Option String
  deriving DecidableEq, Repr

def Operand.use? : Operand → Option MemberUse
  | .field u => some ⟨u.owner, u.name, none⟩
  | .call c => some ⟨c.owner, c.name, some c.descriptor⟩
  | _ => none

namespace Program

section Members

variable (p : Program)

def member? : Target → Option Member
  | .field id => (p.field? id).map fun f => ⟨f.owner, f.name, none⟩
  | .method id => (p.method? id).map fun m => ⟨m.owner, m.name, some m.descriptor⟩
  | .class _ => none

def use? (ref : InsnRef) : Option MemberUse := (p.site? ref).bind fun site => site.2.use?

-- The member of a class that a use asks for.
def memberIn? (u : MemberUse) (c : ClassId) : Option Target :=
  match u.descriptor with
  | none => (p.fieldIn? u.name c).map .field
  | some descriptor => (p.methodIn? u.name descriptor c).map .method

theorem member?_field (id : FieldId) (m : Member) : p.member? (.field id) = some m ↔
    p.fieldNaming? id = some ⟨m.owner, m.name⟩ ∧ m.descriptor = none := by
  obtain ⟨owner, name, descriptor⟩ := m
  rw [member?, fieldNaming?]
  cases p.field? id <;> simp [Field.naming, eq_comm, and_assoc]

theorem member?_method (id : MethodId) (m : Member) : p.member? (.method id) = some m ↔
    ∃ descriptor, p.methodNaming? id = some ⟨m.owner, m.name, descriptor⟩ ∧
      m.descriptor = some descriptor := by
  obtain ⟨owner, name, descriptor⟩ := m
  rw [member?, methodNaming?]
  cases p.method? id with
  | none => simp
  | some m => simp [Method.naming, eq_comm, and_assoc]

theorem member_in?_iff (indexed : p.Indexed) (u : MemberUse) (c : ClassId) (t : Target) :
    p.memberIn? u c = some t ↔ p.member? t = some ⟨c, u.name, u.descriptor⟩ := by
  obtain ⟨owner, name, descriptor⟩ := u
  cases descriptor with
  | none =>
      simp only [memberIn?, Option.map_eq_some_iff, p.field_in?_iff indexed]
      cases t with
      | field id => simp [member?_field]
      | method id => simp [member?_method]
      | «class» id => simp [member?]
  | some descriptor =>
      simp only [memberIn?, Option.map_eq_some_iff, p.method_in?_iff indexed]
      cases t with
      | field id => simp [member?_field]
      | method id => simp [member?_method]
      | «class» id => simp [member?]

theorem member?_of_held (bound : p.Bound) (t : Target) (ref : InsnRef) (u : MemberUse)
    (held : p.Holds t ref) (used : p.use? ref = some u) :
    ∃ c, p.member? t = some ⟨c, u.name, u.descriptor⟩ := by
  obtain ⟨⟨context, operand⟩, site, isUse⟩ := Option.bind_eq_some_iff.mp used
  have named := bound.sound t ref held
  rw [target?_eq, site, Option.bind_some] at named
  cases t with
  | field id =>
      obtain ⟨use, rfl, _⟩ := lookup?_field p context operand id named
      cases isUse
      obtain ⟨f, _, live, _, sameName, _⟩ := field_use_live p bound.indexed context use id named
      exact ⟨f.owner, by rw [member?, live, ← sameName]; rfl⟩
  | method id =>
      obtain ⟨call, rfl, key⟩ := lookup?_method p context operand id named
      cases isUse
      obtain ⟨m, owner, live, loaded, sameKey⟩ :=
        method_key_live p id _ ((bound.indexed.methods.inverse _ id).mp key)
      have plain : Undotted call.owner ∧ Undotted call.name := bound.coded.plain ref context _ site
      have named : p.className? m.owner = some owner.name := congrArg (Option.map _) loaded
      obtain ⟨_, sameName, sameDescriptor⟩ := Key.method_injective _ _ _ _ _ _ plain.1
        (bound.indexed.plain_owner p m.owner _ named) plain.2
        (bound.indexed.plain_method_name p id m live) sameKey
      exact ⟨m.owner, by rw [member?, live, sameName, sameDescriptor]; rfl⟩
  | «class» id =>
      obtain ⟨_, _, isText, _⟩ := lookup?_class p context operand id named
      cases operand with
      | field _ | call _ => cases isText
      | _ => cases isUse

theorem holds_of_member_in? (indexed : p.Indexed) (complete : p.Complete) (ref : InsnRef) (u : MemberUse)
    (c : ClassId) (t : Target) (used : p.use? ref = some u) (loaded : p.findClass? u.owner = some c)
    (own : p.memberIn? u c = some t) : p.Holds t ref := by
  obtain ⟨⟨context, operand⟩, site, isUse⟩ := Option.bind_eq_some_iff.mp used
  have named : p.className? c = some u.owner := (indexed.classNames u.owner c).mp loaded
  have isMember := (p.member_in?_iff indexed u c t).mp own
  apply complete
  rw [target?_eq, site, Option.bind_some]
  cases operand with
  | field use =>
      cases isUse
      obtain ⟨id, found, rfl⟩ := Option.map_eq_some_iff.mp own
      obtain ⟨f, live, naming⟩ := Option.map_eq_some_iff.mp ((p.field_in?_iff indexed _ c id).mp found)
      have owns : f.owner = c := congrArg FieldNaming.owner naming
      have direct : p.findFieldKey? use.key = some id :=
        (indexed.find_field?_iff p id use.owner use.name).mpr
          ⟨f, live, owns ▸ named, congrArg FieldNaming.name naming⟩
      rw [lookup?_use, direct]
      rfl
  | call call =>
      cases isUse
      obtain ⟨id, found, rfl⟩ := Option.map_eq_some_iff.mp own
      obtain ⟨m, live, naming⟩ := Option.map_eq_some_iff.mp ((p.method_in?_iff indexed _ _ c id).mp found)
      have owns : m.owner = c := congrArg MethodNaming.owner naming
      have sameName : m.name = call.name := congrArg MethodNaming.name naming
      have sameDescriptor : m.descriptor = call.descriptor := congrArg MethodNaming.descriptor naming
      have direct : p.findMethodKey? call.key = some id := by
        rw [indexed.find_method_key p id m call.owner _ live (owns ▸ named), sameName, sameDescriptor]
        rfl
      rw [lookup?, direct]
      rfl
  | _ => cases isUse

end Members

-- Members have new names in place of others, and so have instructions that are recorded with a member.
structure MembersRenamed (renames : String → String → Prop) (p q : Program) : Prop where
  bound : q.Bound
  links : SameLinks p q
  recorded : ∀ t ref, q.Holds t ref ↔ p.Holds t ref
  members : ∀ t, q.member? t = p.member? t ∨ ∃ m new, p.member? t = some m ∧
    q.member? t = some { m with name := new } ∧ renames m.name new
  uses : ∀ ref, q.use? ref = p.use? ref ∨ ∃ t u new, p.Holds t ref ∧ p.use? ref = some u ∧
    q.use? ref = some { u with name := new }

section Renamed

variable {renames : String → String → Prop}

theorem members_renamed_refl (p : Program) (bound : p.Bound) : MembersRenamed renames p p where
  bound := bound
  links := .refl p
  recorded := fun _ _ => Iff.rfl
  members := fun _ => .inl rfl
  uses := fun _ => .inl rfl

theorem MembersRenamed.trans {p q r : Program} (first : MembersRenamed renames p q)
    (second : MembersRenamed renames q r)
    (passes : ∀ old new newer, renames old new → renames new newer → renames old newer) :
    MembersRenamed renames p r where
  bound := second.bound
  links := first.links.trans second.links
  recorded := fun t ref => (second.recorded t ref).trans (first.recorded t ref)
  members t := by
    rcases second.members t with same | ⟨m, newer, between, now, renamed⟩
    · rw [same]
      exact first.members t
    · rcases first.members t with same | ⟨m', new, before, between', renamed'⟩
      · exact .inr ⟨m, newer, same.symm.trans between, now, renamed⟩
      · cases between.symm.trans between'
        exact .inr ⟨m', newer, before, now, passes _ _ _ renamed' renamed⟩
  uses ref := by
    rcases second.uses ref with same | ⟨t, u, newer, held, between, now⟩
    · rw [same]
      exact first.uses ref
    · rcases first.uses ref with same | ⟨t', u', new, held', before, between'⟩
      · exact .inr ⟨t, u, newer, (first.recorded t ref).mp held, same.symm.trans between, now⟩
      · cases between.symm.trans between'
        exact .inr ⟨t', u', newer, held', before, now⟩

theorem use?_of_uses {p : Program} {ref : InsnRef} {u : FieldUse} (uses : p.Uses ref u) :
    p.use? ref = some ⟨u.owner, u.name, none⟩ := by
  obtain ⟨context, site⟩ := uses
  rw [use?, site]
  rfl

theorem use?_of_calls {p : Program} {ref : InsnRef} {call : Call} (calls : p.Calls ref call) :
    p.use? ref = some ⟨call.owner, call.name, some call.descriptor⟩ := by
  obtain ⟨context, site⟩ := calls
  rw [use?, site]
  rfl

variable (p q : Program) (bound : p.Bound)

include bound

theorem members_renamed_rename_field (id : FieldId) (new : String) (f : Field) (plain : Undotted new)
    (live : p.field? id = some f) (renamed : renames f.name new) (done : p.renameField id new = .ok q) :
    MembersRenamed renames p q := by
  by_cases differ : new = f.name
  · obtain ⟨f', found, ⟨_, rfl⟩ | ⟨_, apart, _⟩⟩ := rename_field_ok p q id new done
    · exact members_renamed_refl q bound
    · cases live.symm.trans found
      exact absurd differ.symm apart
  obtain ⟨owner, _, touched⟩ := rename_field_touches p q id new f bound plain live differ done
  constructor
  · exact bound_rename_field p q bound id new plain done
  · exact same_links_rename_field p q id new done
  · exact touched.recorded
  · intro t
    cases t with
    | field i =>
        by_cases same : i = id
        · subst same
          refine .inr ⟨⟨f.owner, f.name, none⟩, new, ?_, ?_, renamed⟩
          · rw [member?, live, Option.map_some]
          · rw [member?, touched.own, Option.map_some]
        · rw [member?, touched.fields i fun t => same (Target.field.inj t).symm]
          exact .inl rfl
    | method n =>
        have body := touched.bodies n fun t => by cases t
        rw [member?, body, Option.map_map]
        exact .inl rfl
    | «class» c => exact .inl rfl
  · intro ref
    by_cases held : p.Holds (.field id) ref
    · obtain ⟨use, before, _, now⟩ := touched.uses ref held
      exact .inr ⟨_, _, new, held, use?_of_uses before, use?_of_uses now⟩
    · have apart := site?_rename_field_apart p ref q id new done held
      rw [use?, apart]
      exact .inl rfl

theorem members_renamed_rename_method (id : MethodId) (new : String) (m : Method) (plain : Undotted new)
    (live : p.method? id = some m) (renamed : renames m.name new) (done : p.renameMethod id new = .ok q) :
    MembersRenamed renames p q := by
  by_cases differ : new = m.name
  · obtain ⟨m', found, _, ⟨_, rfl⟩ | ⟨_, apart, _⟩⟩ := rename_method_ok p q id new done
    · exact members_renamed_refl q bound
    · cases live.symm.trans found
      exact absurd differ.symm apart
  obtain ⟨owner, _, touched⟩ := rename_method_touches p q id new m bound plain live differ done
  constructor
  · exact bound_rename_method p q bound id new plain done
  · exact same_links_rename_method p q id new done
  · exact touched.recorded
  · intro t
    cases t with
    | field i =>
        rw [member?, touched.fields i fun t => by cases t]
        exact .inl rfl
    | method n =>
        by_cases same : n = id
        · subst same
          refine .inr ⟨⟨m.owner, m.name, some m.descriptor⟩, new, ?_, ?_, renamed⟩
          · rw [member?, live, Option.map_some]
          · rw [member?, touched.own, Option.map_some]
            rfl
        · rw [member?, touched.bodies n fun t => same (Target.method.inj t).symm, Option.map_map]
          exact .inl rfl
    | «class» c => exact .inl rfl
  · intro ref
    by_cases held : p.Holds (.method id) ref
    · obtain ⟨call, before, _, _, _, now⟩ := touched.calls ref held
      exact .inr ⟨_, _, new, held, use?_of_calls before, use?_of_calls now⟩
    · have apart := site?_rename_method_apart p ref q id new done held
      rw [use?, apart]
      exact .inl rfl

end Renamed

end Program

end JvmEdit
