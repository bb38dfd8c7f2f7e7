import JvmEdit.Proofs.Hierarchy.Session
import JvmEdit.Proofs.References.Relocation
set_option autoImplicit false

namespace JvmEdit

namespace Program

section Links

variable (p : Program)

theorem link_hierarchy_induct (holds : Program → Prop) (start : holds p)
    (cleared : ∀ q id, holds q →
      holds (q.updateClass id fun c => { c with subclasses := .empty, implementers := .empty }))
    (linked : ∀ q id, holds q → holds (q.linkClass id)) : holds p.linkHierarchy := by
  simp only [linkHierarchy]
  apply List.foldlRecOn
  · apply List.foldlRecOn
    · exact start
    · exact fun q kept id _ => cleared q id kept
  · exact fun q kept id _ => linked q id kept

theorem same_names_link_hierarchy : SameNames p p.linkHierarchy := by
  apply link_hierarchy_induct p (SameNames p) (.refl p)
  · exact fun q id same => same.trans (same_names_update_class q id _ fun _ => rfl)
  · exact fun q id same => same.trans (same_names_link_class q id)

theorem same_sites_link_hierarchy : SameSites p p.linkHierarchy := by
  apply link_hierarchy_induct p (SameSites p) (.refl p)
  · exact fun q id same => same.trans (same_sites_update_class q id _ fun _ => rfl)
  · exact fun q id same => same.trans (same_sites_link_class q id)

theorem records_link_hierarchy (target : Target) : p.linkHierarchy.records target = p.records target := by
  apply link_hierarchy_induct p (fun q => q.records target = p.records target) rfl
  · intro q id same
    refine (records_update_class q id _ ?_ target).trans same
    exact fun _ => rfl
  · exact fun q id same => (records_link_class q id target).trans same

theorem complete_resolve_all (indexed : p.Indexed) (coded : p.Coded) : p.resolveAll.1.Complete := by
  have same : SameSites p p.resolveAll.1 := by
    rw [resolve_all_program]
    exact .foldl _ same_sites_resolve_method _ p
  intro target ref named
  rw [same.target?] at named
  exact (holds_resolve_all_iff p indexed coded target ref).mpr (Or.inr named)

end Links

end Program

namespace Session

-- A program as it is once its classes are loaded and linked and its instructions bound.
def ready [Libraries] (settings : Settings) (loads : List SessionAction) : Program :=
  ((start settings).run loads).program.linkHierarchy.resolveAll.1

section Ready

variable (settings : Settings) (loads : List SessionAction) (plain : ∀ action ∈ loads, action.PlainLoad)

include plain

theorem bound_complete_ready [Libraries] : (ready settings loads).Bound ∧
    (ready settings loads).Complete := by
  let p := ((start settings).run loads).program
  have loading : ((start settings).run loads).Loading := loading_run _ loads (loading_start settings) plain
  have indexed : p.Indexed := indexed_run _ loads (indexed_start settings) fun action member =>
    plain_of_plain_load action (plain action member)
  have indexedNow := Program.indexed_same_names p _ p.same_names_link_hierarchy indexed
  have codedNow := p.same_sites_link_hierarchy.coded loading.coded
  have unbound : p.linkHierarchy.Unbound :=
    Program.unbound_of_records p _ loading.unbound fun target => Or.inl (p.records_link_hierarchy target)
  have bound := Program.sound_resolve_all _ (Program.sound_of_unbound _ unbound) codedNow
  exact ⟨⟨Program.indexed_same_names _ _ (Program.same_names_resolve_all _) indexedNow, bound.1, bound.2⟩,
    Program.complete_resolve_all _ indexedNow codedNow⟩

theorem exact_hierarchy_ready [Libraries]
    (legal : ((start settings).run loads).program.ClassNamesLegal) :
    (ready settings loads).ExactHierarchy := by
  let p := ((start settings).run loads).program
  have indexed : p.Indexed := indexed_run _ loads (indexed_start settings) fun action member =>
    plain_of_plain_load action (plain action member)
  have fresh : ∀ id, (p.className? id).isSome → id.val < p.nextId := by
    intro id live
    rw [Program.class_name_eq, Option.isSome_map] at live
    exact indexed.freshClass id live
  exact Program.exact_hierarchy_same_links _ _ p.linkHierarchy.same_links_resolve_all
    (p.exact_hierarchy_link_hierarchy ⟨indexed.classNames, indexed.classOrder, fresh⟩ legal)

end Ready

end Session

end JvmEdit
