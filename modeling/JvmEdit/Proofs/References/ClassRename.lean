import JvmEdit.Libraries.Standard
import JvmEdit.Proofs.Descriptor.Rename
import JvmEdit.Proofs.References.Session
set_option autoImplicit false

namespace JvmEdit

namespace Program

-- The second program is the first one with a class renamed throughout.
structure Renames (p q : Program) (r : Renaming) : Prop where
  indexed : q.Indexed
  sites : ∀ ref, q.site? ref = (p.site? ref).map fun site => (site.1, r.operand site.2)
  supers : ∀ c, q.super? c = (p.super? c).map r.internal
  records : ∀ target, q.records target = p.records target
  names : ∀ c, q.className? c = (p.className? c).map r.name
  fields : ∀ i, q.fieldNaming? i = p.fieldNaming? i
  methods : ∀ i, q.methodNaming? i =
    (p.methodNaming? i).map fun m => { m with descriptor := r.descriptor m.descriptor }

section Steps

variable (p : Program)

theorem same_sites_update_parents (id : ClassId) (f g : Class → Class)
    (keepsF : ∀ c, (f c).superName = c.superName) (keepsG : ∀ c, (g c).superName = c.superName) :
    SameSites p (p.updateParents id f g) := by
  refine update_parents_induct p id f g (SameSites p) (.refl p) ?_ ?_
  · exact fun q c same => same.trans (same_sites_update_class q c f keepsF)
  · exact fun q c same => same.trans (same_sites_update_class q c g keepsG)

theorem records_update_parents (id : ClassId) (f g : Class → Class)
    (keepsF : ∀ c, (f c).typeReferences = c.typeReferences)
    (keepsG : ∀ c, (g c).typeReferences = c.typeReferences) (target : Target) :
    (p.updateParents id f g).records target = p.records target := by
  refine update_parents_induct p id f g (fun q => q.records target = p.records target) rfl ?_ ?_
  · exact fun q c same => (records_update_class q c f keepsF target).trans same
  · exact fun q c same => (records_update_class q c g keepsG target).trans same

theorem same_sites_unlink_class (id : ClassId) : SameSites p (p.unlinkClass id) :=
  same_sites_update_parents p id _ _ (fun _ => rfl) fun _ => rfl

theorem records_unlink_class (id : ClassId) (target : Target) :
    (p.unlinkClass id).records target = p.records target := by
  refine records_update_parents p id _ _ ?_ ?_ target
  · exact fun _ => rfl
  · exact fun _ => rfl

theorem same_sites_link_class (id : ClassId) : SameSites p (p.linkClass id) :=
  same_sites_update_parents p id _ _ (fun _ => rfl) fun _ => rfl

theorem records_link_class (id : ClassId) (target : Target) :
    (p.linkClass id).records target = p.records target := by
  refine records_update_parents p id _ _ ?_ ?_ target
  · exact fun _ => rfl
  · exact fun _ => rfl

theorem same_sites_relink_class (id : ClassId) : SameSites p (p.relinkClass id) := by
  unfold relinkClass
  refine (same_sites_link_class p id).trans ?_
  dsimp only
  split
  · exact .refl _
  · exact same_sites_update_class _ id _ fun _ => rfl

theorem records_relink_class (id : ClassId) (target : Target) :
    (p.relinkClass id).records target = p.records target := by
  have linked := records_link_class p id target
  unfold relinkClass
  dsimp only
  split
  · exact linked
  · refine (records_update_class _ id _ ?_ target).trans linked
    intro c
    rfl

end Steps

section Renamed

variable (p : Program) (id : ClassId) (r : Renaming)

theorem super?_renamed (c : ClassId) :
    (p.renamed id r).super? c = (p.super? c).map r.internal := by
  have stored : (p.renamed id r).class? c =
      (((p.unlinkClass id).updateClass id fun c => { c with name := r.new }).class? c).map
        r.classHeader := Table.get?_map_values _ _ _
  have kept := super?_update_class (p.unlinkClass id) id (fun c => { c with name := r.new })
    (fun _ => rfl) c
  have before := (same_sites_unlink_class p id).supers c
  rw [super?, stored, ← before, ← kept, super?]
  cases ((p.unlinkClass id).updateClass id fun c => { c with name := r.new }).class? c <;> rfl

theorem site?_renamed (ref : InsnRef) : (p.renamed id r).site? ref =
    (p.site? ref).map fun site => (site.1, r.operand site.2) := by
  have stored : (p.renamed id r).method? ref.method = (p.method? ref.method).map r.methodText :=
    Table.get?_map_values _ _ _
  rw [site?, stored, site?]
  cases p.method? ref.method with
  | none => rfl
  | some m =>
      have code : (r.methodText m).code.get? ref.insn = (m.code.get? ref.insn).map r.instruction := by
        change ((m.code.toList.map r.instruction).find? (·.id = ref.insn)) = _
        rw [List.find?_map]
        rfl
      rw [Option.map_some, Option.bind_some, code, Option.bind_some]
      cases m.code.get? ref.insn <;> rfl

theorem records_renamed (target : Target) :
    (p.renamed id r).records target = p.records target := by
  cases target with
  | field i =>
      have stored : (p.renamed id r).field? i = (p.field? i).map r.fieldText :=
        Table.get?_map_values _ _ _
      rw [records, stored, Option.map_map]
      rfl
  | method i =>
      have stored : (p.renamed id r).method? i = (p.method? i).map r.methodText :=
        Table.get?_map_values _ _ _
      rw [records, stored, Option.map_map]
      rfl
  | «class» c =>
      have stored : (p.renamed id r).class? c =
          (((p.unlinkClass id).updateClass id fun c => { c with name := r.new }).class? c).map
            r.classHeader := Table.get?_map_values _ _ _
      have kept := records_update_class (p.unlinkClass id) id (fun c => { c with name := r.new })
        (fun _ => rfl) (.class c)
      rw [← records_unlink_class p id, ← kept, records, stored, Option.map_map]
      rfl

theorem name_after_name (indexed : p.Indexed) (live : p.className? id = some r.old) (c : ClassId) :
    p.nameAfter id r.new c = (p.className? c).map r.name := by
  by_cases same : c = id
  · rw [nameAfter, if_pos same, same, live, Option.map_some, Renaming.name, if_pos rfl]
  · rw [nameAfter, if_neg same]
    cases named : p.className? c with
    | none => rfl
    | some n =>
        have differ : n ≠ r.old := fun isOld =>
          same (Table.inverse_unique _ _ indexed.classNames r.old c id (isOld ▸ named) live)
        rw [Option.map_some, Renaming.name, if_neg differ]

end Renamed

theorem renames_self (p : Program) (n : String) (indexed : p.Indexed) : Renames p p ⟨n, n⟩ := by
  refine ⟨indexed, ?_, ?_, fun _ => rfl, ?_, fun _ => rfl, ?_⟩
  · intro ref
    cases p.site? ref <;> simp [Renaming.operand_self]
  · intro c
    cases p.super? c <;> simp [Renaming.internal_self]
  · intro c
    cases p.className? c <;> simp [Renaming.name_self]
  · intro i
    cases p.methodNaming? i <;> simp [Renaming.descriptor_self]

theorem renames_rename_class (p q : Program) (id : ClassId) (old new : String) (indexed : p.Indexed)
    (plain : Undotted new) (live : p.className? id = some old)
    (done : p.renameClass id new = .ok q) : Renames p q ⟨old, new⟩ := by
  have after := indexed_rename_class p q id new indexed plain done
  obtain ⟨old', live', outcome⟩ := rename_class_ok p q id new indexed.is_owned
    (Table.keys_nodup _ indexed.classOrder) (Table.keys_nodup _ indexed.fieldOrder)
    (Table.keys_nodup _ indexed.methodOrder) done
  cases live.symm.trans live'
  rcases outcome with ⟨rfl, rfl⟩ | ⟨_, _, _, rfl⟩
  · exact renames_self q old indexed
  · have sites := same_sites_relink_class (p.renamed id ⟨old, new⟩) id
    have names := same_names_relink_class (p.renamed id ⟨old, new⟩) id
    refine ⟨after, ?_, ?_, ?_, ?_, ?_, ?_⟩
    · intro ref
      rw [sites.sites, site?_renamed]
    · intro c
      rw [sites.supers, super?_renamed]
    · intro target
      rw [records_relink_class, records_renamed]
    · intro c
      rw [names.class_name, class_name?_renamed p id ⟨old, new⟩ live,
        name_after_name p id ⟨old, new⟩ indexed live]
    · intro i
      rw [names.fields, field_naming?_renamed]
    · intro i
      rw [names.methods, method_naming?_renamed]

-- Another field comes to stand under the key that a field instruction carries afterwards.
def Captured (p : Program) (r : Renaming) (id : FieldId) (u : FieldUse) : Prop :=
  ∃ other f owner, other ≠ id ∧ p.field? other = some f ∧ p.className? f.owner = some owner ∧
    f.name = u.name ∧ r.internal u.owner = r.name owner

-- Neither the owner given with a field instruction nor the superclass is the field's class any
-- more.
def Lost (p : Program) (r : Renaming) (id : FieldId) (context : ClassId) (u : FieldUse) : Prop :=
  ∃ f owner, p.field? id = some f ∧ p.className? f.owner = some owner ∧
    r.internal u.owner ≠ r.name owner ∧ (p.super? context).map r.internal ≠ some (r.name owner)

-- What takes an instruction away from the entity it names when a class is renamed.
def Slips (p : Program) (r : Renaming) (target : Target) (context : ClassId)
    (operand : Operand) : Prop :=
  match target, operand with
  | .field id, .field u => p.Captured r id u ∨ p.Lost r id context u
  | .method id, .call c => ∃ m owner, p.method? id = some m ∧ p.className? m.owner = some owner ∧
      r.internal c.owner ≠ r.name owner
  | .class id, o => ∃ name, p.className? id = some name ∧
      (o.referencedClass?.map r.internal).bind ClassName.element? ≠ some (r.name name)
  | _, _ => False

theorem field_use_live (p : Program) (indexed : p.Indexed) (context : ClassId) (u : FieldUse)
    (id : FieldId) (named : p.lookup? (some context) (.field u) = some (.field id)) :
    ∃ f owner, p.field? id = some f ∧ p.className? f.owner = some owner ∧ f.name = u.name ∧
      (u.owner = owner ∨ p.super? context = some owner) := by
  obtain ⟨_, isField, outcome⟩ := lookup?_field p context _ id named
  cases isField
  rcases outcome with direct | ⟨_, superName, isSuper, inherited⟩
  · obtain ⟨f, live, ownerLive, name⟩ := (indexed.find_field?_iff p id _ _).mp direct
    exact ⟨f, u.owner, live, ownerLive, name, Or.inl rfl⟩
  · obtain ⟨f, live, ownerLive, name⟩ := (indexed.find_field?_iff p id _ _).mp inherited
    exact ⟨f, superName, live, ownerLive, name, Or.inr isSuper⟩

section Lookups

variable {p q : Program} {r : Renaming} (renames : Renames p q r)

include renames

theorem Renames.field_key (id : FieldId) (key : String) : q.findFieldKey? key = some id ↔
    ∃ f owner, p.field? id = some f ∧ p.className? f.owner = some owner ∧
      key = Key.field (r.name owner) f.name := by
  refine (renames.indexed.fields.inverse key id).trans ?_
  change q.fieldKey? id = some key ↔ _
  rw [field_key_eq, renames.fields]
  constructor
  · intro held
    obtain ⟨naming, found, rest⟩ := Option.bind_eq_some_iff.mp held
    obtain ⟨f, live, rfl⟩ := Option.map_eq_some_iff.mp found
    obtain ⟨renamed, named, isKey⟩ := Option.map_eq_some_iff.mp rest
    rw [renames.names] at named
    obtain ⟨owner, ownerLive, rfl⟩ := Option.map_eq_some_iff.mp named
    exact ⟨f, owner, live, ownerLive, isKey.symm⟩
  · rintro ⟨f, owner, live, ownerLive, rfl⟩
    have naming : p.fieldNaming? id = some f.naming := congrArg (Option.map Field.naming) live
    have named : q.className? f.owner = some (r.name owner) := by rw [renames.names, ownerLive]; rfl
    rw [naming, Option.bind_some]
    exact congrArg (Option.map _) named

theorem Renames.method_key (id : MethodId) (key : String) : q.findMethodKey? key = some id ↔
    ∃ m owner, p.method? id = some m ∧ p.className? m.owner = some owner ∧
      key = Key.method (r.name owner) m.name (r.descriptor m.descriptor) := by
  refine (renames.indexed.methods.inverse key id).trans ?_
  change q.methodKey? id = some key ↔ _
  rw [method_key_eq, renames.methods]
  constructor
  · intro held
    obtain ⟨naming, found, rest⟩ := Option.bind_eq_some_iff.mp held
    obtain ⟨before, foundBefore, rfl⟩ := Option.map_eq_some_iff.mp found
    obtain ⟨m, live, rfl⟩ := Option.map_eq_some_iff.mp foundBefore
    obtain ⟨renamed, named, isKey⟩ := Option.map_eq_some_iff.mp rest
    rw [renames.names] at named
    obtain ⟨owner, ownerLive, rfl⟩ := Option.map_eq_some_iff.mp named
    exact ⟨m, owner, live, ownerLive, isKey.symm⟩
  · rintro ⟨m, owner, live, ownerLive, rfl⟩
    have naming : p.methodNaming? id = some m.naming := congrArg (Option.map Method.naming) live
    have named : q.className? m.owner = some (r.name owner) := by rw [renames.names, ownerLive]; rfl
    rw [naming, Option.map_some, Option.bind_some]
    exact congrArg (Option.map _) named

theorem Renames.class_key (id : ClassId) (key : String) : q.findClass? key = some id ↔
    ∃ name, p.className? id = some name ∧ key = r.name name := by
  refine (renames.indexed.classNames key id).trans ?_
  rw [renames.names, Option.map_eq_some_iff]
  exact exists_congr fun name => and_congr_right fun _ => eq_comm

theorem Renames.field_owner (indexed : p.Indexed) (id : FieldId) (f : Field) (owner : String)
    (live : p.field? id = some f) (ownerLive : p.className? f.owner = some owner) (text : String) :
    q.findFieldKey? (Key.field text f.name) = some id ↔ text = r.name owner := by
  rw [renames.field_key]
  constructor
  · rintro ⟨f', owner', live', ownerLive', same⟩
    cases live.symm.trans live'
    cases ownerLive.symm.trans ownerLive'
    have plain : Undotted (r.name owner) :=
      renames.indexed.plain_owner q f.owner _ (by rw [renames.names, ownerLive]; rfl)
    exact (Key.field_injective_of_plain _ _ _ _ plain (indexed.plain_field_name p id f live) same).1
  · rintro rfl
    exact ⟨f, owner, live, ownerLive, rfl⟩

theorem Renames.captured_iff (indexed : p.Indexed) (id : FieldId) (u : FieldUse) :
    p.Captured r id u ↔ ∃ other, other ≠ id ∧
      q.findFieldKey? (Key.field (r.internal u.owner) u.name) = some other := by
  constructor
  · rintro ⟨other, f, owner, differ, live, ownerLive, name, text⟩
    have key : Key.field (r.internal u.owner) u.name = Key.field (r.name owner) f.name := by
      rw [text, name]
    exact ⟨other, differ, (renames.field_key other _).mpr ⟨f, owner, live, ownerLive, key⟩⟩
  · rintro ⟨other, differ, found⟩
    obtain ⟨f, owner, live, ownerLive, key⟩ := (renames.field_key other _).mp found
    have plain : Undotted (r.name owner) :=
      renames.indexed.plain_owner q f.owner _ (by rw [renames.names, ownerLive]; rfl)
    have parts := Key.field_injective_of_plain _ _ _ _ plain
      (indexed.plain_field_name p other f live) key
    exact ⟨other, f, owner, differ, live, ownerLive, parts.2.symm, parts.1⟩

theorem Renames.lookup?_field (indexed : p.Indexed) (id : FieldId) (context : ClassId) (u : FieldUse)
    (named : p.lookup? (some context) (.field u) = some (.field id)) :
    q.lookup? (some context) (r.operand (.field u)) = some (.field id) ↔
      ¬(p.Captured r id u ∨ p.Lost r id context u) := by
  obtain ⟨f, owner, live, ownerLive, sameName, _⟩ := field_use_live p indexed context u id named
  have own := fun text => renames.field_owner indexed id f owner live ownerLive text
  rw [sameName] at own
  have inherited : q.inheritedField? (some context) u.name = some id ↔
      (p.super? context).map r.internal = some (r.name owner) := by
    rw [inherited_field?_eq, renames.supers, Option.bind_eq_some_iff]
    constructor
    · rintro ⟨text, isSuper, found⟩
      rw [isSuper, (own text).mp found]
    · intro isSuper
      exact ⟨r.name owner, isSuper, (own _).mpr rfl⟩
  have lost : p.Lost r id context u ↔
      ¬q.findFieldKey? (Key.field (r.internal u.owner) u.name) = some id ∧
        ¬q.inheritedField? (some context) u.name = some id := by
    rw [own, inherited]
    constructor
    · rintro ⟨f', owner', live', ownerLive', apart⟩
      cases live.symm.trans live'
      cases ownerLive.symm.trans ownerLive'
      exact apart
    · exact fun apart => ⟨f, owner, live, ownerLive, apart⟩
  have lookup : q.lookup? (some context) (r.operand (.field u)) =
      ((q.findFieldKey? (Key.field (r.internal u.owner) u.name)).or
        (q.inheritedField? (some context) u.name)).map .field :=
    Program.lookup?_use q context
      { u with owner := r.internal u.owner, descriptor := r.descriptor u.descriptor }
  rw [lookup, renames.captured_iff indexed, lost]
  -- The instruction is led by what stands under its own key, and only then by the superclass.
  cases direct : q.findFieldKey? (Key.field (r.internal u.owner) u.name) with
  | some other =>
      by_cases same : other = id
      · simp [same]
      · simp [same]
  | none =>
      cases q.inheritedField? (some context) u.name with
      | none => simp
      | some other => simp

theorem Renames.lookup?_method (indexed : p.Indexed) (id : MethodId) (context : ClassId) (c : Call)
    (plain : Undotted c.owner ∧ Undotted c.name)
    (named : p.lookup? (some context) (.call c) = some (.method id)) :
    q.lookup? (some context) (r.operand (.call c)) = some (.method id) ↔
      ¬p.Slips r (.method id) context (.call c) := by
  obtain ⟨_, isCall, found⟩ := Program.lookup?_method p context _ id named
  cases isCall
  obtain ⟨m, owner, live, ownerFound, key⟩ :=
    method_key_live p id c.key ((indexed.methods.inverse c.key id).mp found)
  have ownerLive : p.className? m.owner = some owner.name := by rw [className?, ownerFound]; rfl
  have plain_owner := indexed.plain_owner p m.owner owner.name ownerLive
  have plainName := indexed.plain_method_name p id m live
  have parts := Key.method_injective _ _ _ _ _ _ plain.1 plain_owner plain.2 plainName key
  change (q.findMethodKey? (Key.method (r.internal c.owner) c.name (r.descriptor c.descriptor))).map
    Target.method = _ ↔ _
  have slips : p.Slips r (.method id) context (.call c) ↔ r.internal c.owner ≠ r.name owner.name := by
    constructor
    · rintro ⟨m', owner', live', ownerLive', apart⟩
      cases live.symm.trans live'
      cases ownerLive.symm.trans ownerLive'
      exact apart
    · exact fun apart => ⟨m, owner.name, live, ownerLive, apart⟩
  rw [slips, not_not, Option.map_eq_some_iff]
  constructor
  · rintro ⟨other, foundAfter, isMethod⟩
    cases isMethod
    obtain ⟨m', owner', live', ownerLive', same⟩ := (renames.method_key id _).mp foundAfter
    cases live.symm.trans live'
    cases ownerLive.symm.trans ownerLive'
    rw [← parts.2.1, ← parts.2.2] at same
    exact Key.method_left_cancel _ _ _ _ same
  · intro same
    refine ⟨id, (renames.method_key id _).mpr ⟨m, owner.name, live, ownerLive, ?_⟩, rfl⟩
    rw [same, parts.2.1, parts.2.2]

theorem Renames.lookup?_class (indexed : p.Indexed) (id : ClassId) (context : ClassId)
    (operand : Operand) (named : p.lookup? (some context) operand = some (.class id)) :
    q.lookup? (some context) (r.operand operand) = some (.class id) ↔
      ¬p.Slips r (.class id) context operand := by
  obtain ⟨text, name, isText, _, found⟩ := Program.lookup?_class p context operand id named
  have live : p.className? id = some name := (indexed.classNames name id).mp found
  have renamed : (r.operand operand).referencedClass? = some (r.internal text) := by
    rw [r.referenced_class?_operand, isText, Option.map_some]
  have slips : p.Slips r (.class id) context operand ↔
      ClassName.element? (r.internal text) ≠ some (r.name name) := by
    simp only [Slips, isText, Option.map_some, Option.bind_some]
    constructor
    · rintro ⟨name', live', apart⟩
      cases live.symm.trans live'
      exact apart
    · exact fun apart => ⟨name, live, apart⟩
  rw [Program.lookup?_reference q context _ _ renamed, slips, not_not, Option.map_eq_some_iff]
  constructor
  · rintro ⟨other, foundAfter, isClass⟩
    cases isClass
    obtain ⟨text', element, foundAfter⟩ := Option.bind_eq_some_iff.mp foundAfter
    obtain ⟨name', live', rfl⟩ := (renames.class_key id text').mp foundAfter
    cases live.symm.trans live'
    exact element
  · intro element
    refine ⟨id, ?_, rfl⟩
    rw [element, Option.bind_some]
    exact (renames.class_key id _).mpr ⟨name, live, rfl⟩

theorem Renames.lookup? (bound : p.Bound) (target : Target) (ref : InsnRef) (context : ClassId)
    (operand : Operand) (site : p.site? ref = some (context, operand))
    (named : p.lookup? (some context) operand = some target) :
    q.lookup? (some context) (r.operand operand) = some target ↔ ¬p.Slips r target context operand := by
  cases target with
  | field id =>
      obtain ⟨u, rfl, _⟩ := Program.lookup?_field p context operand id named
      exact renames.lookup?_field bound.indexed id context u named
  | method id =>
      obtain ⟨c, rfl, _⟩ := Program.lookup?_method p context operand id named
      exact renames.lookup?_method bound.indexed id context c (bound.coded.plain ref context _ site)
        named
  | «class» id => exact renames.lookup?_class bound.indexed id context operand named

theorem Renames.target?_iff (bound : p.Bound) (target : Target) (ref : InsnRef) (context : ClassId)
    (operand : Operand) (held : p.Holds target ref) (site : p.site? ref = some (context, operand)) :
    q.target? ref = some target ↔ ¬p.Slips r target context operand := by
  have named := bound.sound target ref held
  rw [target?_eq, site, Option.bind_some] at named
  rw [target?_eq, renames.sites, site]
  exact renames.lookup? bound target ref context operand site named

theorem Renames.sound_iff (bound : p.Bound) : q.Sound ↔ ∀ target ref context operand,
    p.Holds target ref → p.site? ref = some (context, operand) →
      ¬p.Slips r target context operand := by
  constructor
  · intro sound target ref context operand held site
    have after : q.Holds target ref := by rw [Holds, renames.records]; exact held
    exact (renames.target?_iff bound target ref context operand held site).mp (sound target ref after)
  · intro firm target ref held
    rw [Holds, renames.records] at held
    obtain ⟨context, operand, site, _⟩ := bound.sound.site target ref held
    exact (renames.target?_iff bound target ref context operand held site).mpr
      (firm target ref context operand held site)

end Lookups

theorem sound_of_violations_nil (p : Program) (none : p.violations = []) : p.Sound := by
  rw [violations, List.append_eq_nil_iff, List.append_eq_nil_iff] at none
  obtain ⟨⟨classes, fields⟩, methods⟩ := none
  have unstale : ∀ (target : Target) (refs : OrderedSet InsnRef) (ref : InsnRef),
      p.stale target refs = [] → ref ∈ refs → p.target? ref = some target := by
    intro target refs ref none member
    have passed := List.filter_eq_nil_iff.mp none ref ((OrderedSet.mem_to_list _ _).mpr member)
    simpa using passed
  intro target ref held
  cases target with
  | «class» id =>
      cases live : p.class? id with
      | none =>
          rw [Holds, records, live] at held
          exact absurd held (OrderedSet.not_mem_empty ref)
      | some c =>
          have clean := List.flatMap_eq_nil_iff.mp classes id ((Table.mem_keys_iff _ _).mpr ⟨c, live⟩)
          simp only [classViolations, live, List.append_eq_nil_iff, List.map_eq_nil_iff] at clean
          rw [Holds, records, live] at held
          exact unstale _ _ ref clean.2 held
  | field id =>
      cases live : p.field? id with
      | none =>
          rw [Holds, records, live] at held
          exact absurd held (OrderedSet.not_mem_empty ref)
      | some f =>
          have clean := List.flatMap_eq_nil_iff.mp fields id ((Table.mem_keys_iff _ _).mpr ⟨f, live⟩)
          cases key : p.fieldKey? id with
          | none => simp [fieldViolations, live, key] at clean
          | some _ =>
              simp only [fieldViolations, live, key, List.append_eq_nil_iff, List.map_eq_nil_iff]
                at clean
              rw [Holds, records, live] at held
              exact unstale _ _ ref clean.2 held
  | method id =>
      cases live : p.method? id with
      | none =>
          rw [Holds, records, live] at held
          exact absurd held (OrderedSet.not_mem_empty ref)
      | some m =>
          have clean := List.flatMap_eq_nil_iff.mp methods id ((Table.mem_keys_iff _ _).mpr ⟨m, live⟩)
          cases key : p.methodKey? id with
          | none => simp [methodViolations, live, key] at clean
          | some _ =>
              simp only [methodViolations, live, key, List.append_eq_nil_iff, List.map_eq_nil_iff]
                at clean
              rw [Holds, records, live] at held
              exact unstale _ _ ref clean.2 held

-- A recorded field instruction carries the name `new` and reaches its field, which belongs to
-- another class, through the superclass; the class `id` declares a field of the same name.
def Captures (p : Program) (id : ClassId) (new : String) : Prop :=
  ∃ field ref context u f other g, p.Holds (.field field) ref ∧
    p.site? ref = some (context, .field u) ∧ u.owner = new ∧ p.field? field = some f ∧ f.owner ≠ id ∧
    p.field? other = some g ∧ g.owner = id ∧ g.name = u.name

section Legal

variable (p : Program) (bound : p.Bound) (id : ClassId) (r : Renaming)
  (live : p.className? id = some r.old) (free : r.old = r.new ∨ p.findClass? r.new = none)
  (legalNew : InternalName r.new)
  (legal : ∀ c name, p.className? c = some name → InternalName name)

include bound live free legalNew legal

theorem text_of_internal (text owner : String) (c : ClassId) (ownerLive : p.className? c = some owner)
    (same : r.internal text = r.name owner) : text = owner ∨ text = r.new ∧ c = id := by
  have legalOld := legal id r.old live
  have legalOwner := legal c owner ownerLive
  have legalRenamed : InternalName (r.name owner) := by
    simp only [Renaming.name]
    split
    · exact legalNew
    · exact legalOwner
  by_cases bracket : text.toList.head? = some '['
  · have differ : text ≠ r.old := fun isOld => legalOld.no_bracket (isOld ▸ bracket)
    have kept := r.internal_bracket text differ bracket
    exact absurd (same ▸ kept) legalRenamed.no_bracket
  · rw [r.internal_plain text bracket, Renaming.name, Renaming.name] at same
    by_cases isOld : text = r.old
    · by_cases ownerOld : owner = r.old
      · exact Or.inl (isOld.trans ownerOld.symm)
      · rw [if_pos isOld, if_neg ownerOld] at same
        rcases free with unchanged | unheld
        · exact absurd (same.symm.trans unchanged.symm) ownerOld
        · rw [findClass?, (bound.indexed.classNames r.new c).mpr (same ▸ ownerLive)] at unheld
          cases unheld
    · rw [if_neg isOld] at same
      by_cases ownerOld : owner = r.old
      · rw [if_pos ownerOld] at same
        refine Or.inr ⟨same, ?_⟩
        exact Table.inverse_unique _ _ bound.indexed.classNames r.old c id (ownerOld ▸ ownerLive) live
      · rw [if_neg ownerOld] at same
        exact Or.inl same

theorem captures_of_field (i : FieldId) (ref : InsnRef) (context : ClassId) (u : FieldUse)
    (held : p.Holds (.field i) ref) (site : p.site? ref = some (context, .field u))
    (named : p.lookup? (some context) (.field u) = some (.field i))
    (slips : p.Captured r i u ∨ p.Lost r i context u) : p.Captures id r.new := by
  have internalName : ∀ c owner, p.className? c = some owner → r.internal owner = r.name owner :=
    fun c owner ownerLive => r.internal_plain owner (legal c owner ownerLive).no_bracket
  obtain ⟨f, owner, stored, ownerLive, fieldName, through⟩ :=
    field_use_live p bound.indexed context u i named
  rcases slips with ⟨other, g, owner', differ, otherLive, ownerLive', otherName, text⟩ |
      ⟨f', owner', stored', ownerLive', apartOwner, apartSuper⟩
  · have otherKey := fun key => bound.indexed.find_field_key p other g owner' key otherLive ownerLive'
    rcases text_of_internal p bound id r live free legalNew legal u.owner owner' g.owner ownerLive'
      text with direct | ⟨isNew, isId⟩
    · have found : p.findFieldKey? u.key = some other := (otherKey u.key).mpr (by
        rw [FieldUse.key, direct, otherName])
      rw [lookup?_use, found] at named
      cases named
      exact absurd rfl differ
    · refine ⟨i, ref, context, u, f, other, g, held, site, isNew, stored, ?_, otherLive, isId,
        otherName⟩
      intro same
      rw [same, ← isId, ownerLive'] at ownerLive
      cases ownerLive
      have key : Key.field owner f.name = Key.field owner g.name := by rw [fieldName, otherName]
      have ownKey := (bound.indexed.find_field_key p i f owner (Key.field owner f.name) stored
        (by rw [same, ← isId, ownerLive'])).mpr rfl
      rw [(otherKey _).mpr key] at ownKey
      exact differ (Option.some.inj ownKey)
  · cases stored.symm.trans stored'
    cases ownerLive.symm.trans ownerLive'
    rcases through with direct | inherited
    · rw [direct] at apartOwner
      exact absurd (internalName _ owner ownerLive) apartOwner
    · rw [inherited, Option.map_some] at apartSuper
      exact absurd (congrArg some (internalName _ owner ownerLive)) apartSuper

omit live free legalNew in
theorem method_firm (m : MethodId) (ref : InsnRef) (context : ClassId) (operand : Operand)
    (site : p.site? ref = some (context, operand))
    (named : p.lookup? (some context) operand = some (.method m)) :
    ¬p.Slips r (.method m) context operand := by
  obtain ⟨c, rfl, found⟩ := lookup?_method p context operand m named
  rintro ⟨method, owner, stored, ownerLive, apart⟩
  have plain : Undotted c.owner ∧ Undotted c.name := bound.coded.plain ref context _ site
  have key := (bound.indexed.find_method_key p m method owner _ stored ownerLive).mp found
  have parts := Key.method_injective _ _ _ _ _ _ plain.1
    (bound.indexed.plain_owner p _ _ ownerLive) plain.2
    (bound.indexed.plain_method_name p m method stored) key
  rw [parts.1] at apart
  exact apart (r.internal_plain owner (legal _ owner ownerLive).no_bracket)

omit free in
theorem class_firm (c : ClassId) (context : ClassId) (operand : Operand)
    (named : p.lookup? (some context) operand = some (.class c)) :
    ¬p.Slips r (.class c) context operand := by
  obtain ⟨text, name, isText, element, found⟩ := lookup?_class p context operand c named
  have nameLive := (bound.indexed.classNames name c).mp found
  rintro ⟨name', nameLive', apart⟩
  cases nameLive.symm.trans nameLive'
  rw [isText] at apart
  exact apart (r.element?_internal text name (legal c name nameLive) (legal id r.old live) legalNew
    element)

theorem captures_of_slips (target : Target) (ref : InsnRef) (context : ClassId) (operand : Operand)
    (held : p.Holds target ref) (site : p.site? ref = some (context, operand))
    (slips : p.Slips r target context operand) : p.Captures id r.new := by
  have named := bound.sound target ref held
  rw [target?_eq, site, Option.bind_some] at named
  cases target with
  | field i =>
      obtain ⟨u, rfl, _⟩ := lookup?_field p context operand i named
      exact captures_of_field p bound id r live free legalNew legal i ref context u held site named
        slips
  | method m => exact absurd slips (method_firm p bound r legal m ref context operand site named)
  | «class» c =>
      exact absurd slips (class_firm p bound id r live legalNew legal c context operand named)

omit bound free legal in
theorem slips_of_captures (captures : p.Captures id r.new) :
    ∃ target ref context operand, p.Holds target ref ∧ p.site? ref = some (context, operand) ∧
      p.Slips r target context operand := by
  obtain ⟨i, ref, context, u, f, other, g, held, site, isNew, stored, elsewhere, otherLive, isId,
    otherName⟩ := captures
  refine ⟨.field i, ref, context, .field u, held, site, Or.inl ?_⟩
  refine ⟨other, g, r.old, ?_, otherLive, by rw [isId, live], otherName, ?_⟩
  · intro same
    rw [same, stored] at otherLive
    cases otherLive
    exact elsewhere isId
  · rw [isNew, r.internal_plain r.new legalNew.no_bracket, Renaming.name, Renaming.name, if_pos rfl]
    split <;> rfl

end Legal

end Program

namespace Session

-- After a class rename every instruction is still recorded where it was. It still names the
-- entity that records it exactly if it does not slip, and the program is consistent exactly if no
-- recorded instruction slips. Where all classes have names that descriptors can hold, only
-- capture through the new name makes an instruction slip.
theorem violations_rename_class [Libraries] (settings : Settings) (loads : List SessionAction)
    (id : ClassId) (old new : String) (q : Program) (plain : ∀ action ∈ loads, action.PlainLoad)
    (legal : InternalName new) (live : (resolved settings loads).className? id = some old)
    (done : (resolved settings loads).renameClass id new = .ok q) :
    let p := resolved settings loads
    (∀ target, q.records target = p.records target) ∧
    (∀ target ref context operand, p.Holds target ref → p.site? ref = some (context, operand) →
      (q.target? ref = some target ↔ ¬p.Slips ⟨old, new⟩ target context operand)) ∧
    (q.violations = [] ↔ ∀ target ref context operand, p.Holds target ref →
      p.site? ref = some (context, operand) → ¬p.Slips ⟨old, new⟩ target context operand) ∧
    ((∀ c name, p.className? c = some name → InternalName name) →
      (q.violations = [] ↔ ¬p.Captures id new)) := by
  intro p
  have bound : p.Bound := bound_resolved settings loads plain
  have plainNew : Undotted new := fun dot => (legal.2 '.' dot).1 rfl
  have renames := Program.renames_rename_class p q id old new bound.indexed plainNew live done
  have sound : q.violations = [] ↔ q.Sound :=
    ⟨Program.sound_of_violations_nil q,
      Program.violations_nil q (Program.index_exact_of_indexed q renames.indexed)⟩
  have firm := renames.sound_iff bound
  refine ⟨renames.records, renames.target?_iff bound, sound.trans firm, fun legalNames => ?_⟩
  have free : old = new ∨ p.findClass? new = none := by
    obtain ⟨old', live', outcome⟩ := Program.rename_class_ok p q id new bound.indexed.is_owned
      (Table.keys_nodup _ bound.indexed.classOrder) (Table.keys_nodup _ bound.indexed.fieldOrder)
      (Table.keys_nodup _ bound.indexed.methodOrder) done
    cases live.symm.trans live'
    rcases outcome with ⟨same, _⟩ | ⟨_, unheld, _⟩
    · exact Or.inl same
    · exact Or.inr unheld
  rw [sound, firm]
  constructor
  · intro none captures
    obtain ⟨target, ref, context, operand, held, site, slips⟩ :=
      Program.slips_of_captures p id ⟨old, new⟩ live legal captures
    exact none target ref context operand held site slips
  · intro uncaptured target ref context operand held site slips
    exact uncaptured (Program.captures_of_slips p bound id ⟨old, new⟩ live free legal legalNames target
      ref context operand held site slips)

-- Code of the subclass reads a field it inherits, through the name of a class that is not loaded;
-- an unrelated class declares a field of the same name.
def absentOwner : List SessionAction :=
  let header (name : String) (superName : Option String) : ClassEvent :=
    .header ⟨name, superName, [], none, default, 52, [], []⟩
  let field : ClassEvent := .field ⟨"n", "I", none, default, none, []⟩
  [.openBuilder, .visit 0 (header "Base" (some "java/lang/Object")), .visit 0 field,
    .visit 0 .classEnd, .visit 0 (header "Child" (some "Base")),
    .visit 0 (.method ⟨"run", "()V", none, default, [], []⟩),
    .visit 0 (.instruction 180 (.field ⟨"Missing", "n", "I", .read, false⟩)), .visit 0 .classEnd,
    .visit 0 (header "Other" (some "java/lang/Object")), .visit 0 field, .visit 0 .classEnd]

theorem violations_rename_class_moved : (∀ action ∈ absentOwner, action.PlainLoad) ∧
    InternalName "pkg/Moved" ∧ (resolved {} absentOwner).className? ⟨6⟩ = some "Other" ∧
    ∃ q, (resolved {} absentOwner).renameClass ⟨6⟩ "pkg/Moved" = .ok q ∧
      (∀ target, q.records target = (resolved {} absentOwner).records target) ∧
      ∀ target ref context operand, (resolved {} absentOwner).Holds target ref →
        (resolved {} absentOwner).site? ref = some (context, operand) →
        (q.target? ref = some target ↔
          ¬(resolved {} absentOwner).Slips ⟨"Other", "pkg/Moved"⟩ target context operand) := by
  have plain : ∀ action ∈ absentOwner, action.PlainLoad := by decide
  have legal : InternalName "pkg/Moved" := by decide
  have live : (resolved {} absentOwner).className? ⟨6⟩ = some "Other" := by rfl
  obtain ⟨q, done⟩ : ∃ q, (resolved {} absentOwner).renameClass ⟨6⟩ "pkg/Moved" = .ok q := ⟨_, rfl⟩
  have outcome :=
    violations_rename_class {} absentOwner ⟨6⟩ "Other" "pkg/Moved" q plain legal live done
  exact ⟨plain, legal, live, q, done, outcome.1, outcome.2.1⟩

-- Under the name that the code gives as owner, the other class takes the instruction over.
theorem rename_class_absent_owner : (∀ action ∈ absentOwner, action.PlainLoad) ∧
    InternalName "Missing" ∧ (resolved {} absentOwner).violations = [] ∧
    ((resolved {} absentOwner).renameClass ⟨6⟩ "Missing").toOption.map (·.violations) =
      some [.fieldReference "Base.n" ⟨⟨4⟩, ⟨5⟩⟩] := by
  refine ⟨by decide, by decide, rfl, rfl⟩

end Session

end JvmEdit
