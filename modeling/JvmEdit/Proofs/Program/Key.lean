import JvmEdit.Program.Index
set_option autoImplicit false

namespace JvmEdit

def Undotted (name : String) : Prop := '.' ∉ name.toList

instance (name : String) : Decidable (Undotted name) :=
  inferInstanceAs (Decidable ('.' ∉ name.toList))

theorem split_at_first {α : Type} (mark : α) (left left' right right' : List α)
    (absent : mark ∉ left) (absent' : mark ∉ left')
    (same : left ++ mark :: right = left' ++ mark :: right') : left = left' ∧ right = right' := by
  induction left generalizing left' with
  | nil =>
      cases left' with
      | nil => simpa using same
      | cons a rest =>
          simp only [List.nil_append, List.cons_append, List.cons.injEq] at same
          exact absurd (by simp [same.1]) absent'
  | cons a rest ih =>
      cases left' with
      | nil =>
          simp only [List.nil_append, List.cons_append, List.cons.injEq] at same
          exact absurd (by simp [same.1]) absent
      | cons b rest' =>
          simp only [List.cons_append, List.cons.injEq] at same
          have tails := ih rest' (fun member => absent (List.mem_cons_of_mem _ member))
            (fun member => absent' (List.mem_cons_of_mem _ member)) same.2
          exact ⟨by rw [same.1, tails.1], tails.2⟩

namespace Key

theorem field_to_list (owner name : String) :
    (field owner name).toList = owner.toList ++ '.' :: name.toList := by
  simp [field, String.toList_append]

theorem method_eq_field (owner name descriptor : String) :
    method owner name descriptor = field owner (field name descriptor) := by
  simp [method, field, String.append_assoc]

theorem field_injective (owner owner' name name' : String) (plain : Undotted owner)
    (plain' : Undotted owner') (same : field owner name = field owner' name') :
    owner = owner' ∧ name = name' := by
  have lists := congrArg String.toList same
  rw [field_to_list, field_to_list] at lists
  have parts := split_at_first '.' _ _ _ _ plain plain' lists
  exact ⟨String.toList_inj.mp parts.1, String.toList_inj.mp parts.2⟩

theorem field_injective_of_plain (owner owner' name name' : String) (plain : Undotted owner)
    (plainName : Undotted name) (same : field owner' name' = field owner name) :
    owner' = owner ∧ name' = name := by
  refine field_injective _ _ _ _ ?_ plain same
  have lists := congrArg (fun key : String => key.toList.count '.') same
  simp only [field_to_list, List.count_append, List.count_cons_self,
    List.count_eq_zero_of_not_mem plain, List.count_eq_zero_of_not_mem plainName] at lists
  exact List.count_eq_zero.mp (by omega)

theorem method_injective (owner owner' name name' descriptor descriptor' : String)
    (plain : Undotted owner) (plain' : Undotted owner') (plainName : Undotted name)
    (plainName' : Undotted name')
    (same : method owner name descriptor = method owner' name' descriptor') :
    owner = owner' ∧ name = name' ∧ descriptor = descriptor' := by
  rw [method_eq_field, method_eq_field] at same
  have outer := field_injective _ _ _ _ plain plain' same
  exact ⟨outer.1, field_injective _ _ _ _ plainName plainName' outer.2⟩

theorem field_left_cancel (owner owner' name : String) (same : field owner name = field owner' name) :
    owner = owner' := by
  have lists := congrArg String.toList same
  rw [field_to_list, field_to_list] at lists
  exact String.toList_inj.mp (List.append_cancel_right lists)

theorem method_left_cancel (owner owner' name descriptor : String)
    (same : method owner name descriptor = method owner' name descriptor) : owner = owner' := by
  rw [method_eq_field, method_eq_field] at same
  exact field_left_cancel _ _ _ same

end Key

end JvmEdit
