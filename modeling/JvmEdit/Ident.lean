set_option autoImplicit false

namespace JvmEdit

structure ClassId where
  val : Nat
  deriving DecidableEq, Repr, Hashable, Inhabited

structure FieldId where
  val : Nat
  deriving DecidableEq, Repr, Hashable, Inhabited

structure MethodId where
  val : Nat
  deriving DecidableEq, Repr, Hashable, Inhabited

structure InsnId where
  val : Nat
  deriving DecidableEq, Repr, Hashable, Inhabited

structure LabelId where
  val : Nat
  deriving DecidableEq, Repr, Hashable, Inhabited

structure BlockId where
  val : Nat
  deriving DecidableEq, Repr, Hashable, Inhabited

structure InsnRef where
  method : MethodId
  insn : InsnId
  deriving DecidableEq, Repr, Hashable, Inhabited

namespace ClassId

instance : LT ClassId := ⟨fun a b => a.val < b.val⟩
instance : DecidableLT ClassId := fun a b => inferInstanceAs (Decidable (a.val < b.val))
instance : ToString ClassId := ⟨fun id => s!"ClassId({id.val})"⟩

end ClassId

namespace FieldId

instance : LT FieldId := ⟨fun a b => a.val < b.val⟩
instance : DecidableLT FieldId := fun a b => inferInstanceAs (Decidable (a.val < b.val))
instance : ToString FieldId := ⟨fun id => s!"FieldId({id.val})"⟩

end FieldId

namespace MethodId

instance : LT MethodId := ⟨fun a b => a.val < b.val⟩
instance : DecidableLT MethodId := fun a b => inferInstanceAs (Decidable (a.val < b.val))
instance : ToString MethodId := ⟨fun id => s!"MethodId({id.val})"⟩

end MethodId

namespace InsnId

instance : LT InsnId := ⟨fun a b => a.val < b.val⟩
instance : DecidableLT InsnId := fun a b => inferInstanceAs (Decidable (a.val < b.val))
instance : ToString InsnId := ⟨fun id => s!"InsnId({id.val})"⟩

end InsnId

namespace LabelId

instance : LT LabelId := ⟨fun a b => a.val < b.val⟩
instance : DecidableLT LabelId := fun a b => inferInstanceAs (Decidable (a.val < b.val))
instance : ToString LabelId := ⟨fun id => s!"LabelId({id.val})"⟩

end LabelId

namespace BlockId

instance : LT BlockId := ⟨fun a b => a.val < b.val⟩
instance : DecidableLT BlockId := fun a b => inferInstanceAs (Decidable (a.val < b.val))
instance : ToString BlockId := ⟨fun id => s!"Node{id.val}"⟩

end BlockId

namespace InsnRef

instance : LT InsnRef :=
  ⟨fun a b => a.method < b.method ∨ (a.method = b.method ∧ a.insn < b.insn)⟩
instance : DecidableLT InsnRef := fun a b =>
  inferInstanceAs (Decidable (a.method < b.method ∨ (a.method = b.method ∧ a.insn < b.insn)))
instance : ToString InsnRef :=
  ⟨fun ref => s!"InsnRef \x7b method: {ref.method}, insn: {ref.insn} \x7d"⟩

end InsnRef

end JvmEdit
