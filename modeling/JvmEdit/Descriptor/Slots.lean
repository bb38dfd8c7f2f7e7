import JvmEdit.Libraries
set_option autoImplicit false

namespace JvmEdit

def ValueType.slots : ValueType → Nat
  | .void => 0
  | .long | .double => 2
  | .other => 1

namespace Descriptor

def fieldSlots (descriptor : String) : Nat :=
  match descriptor.toList with
  | [] => 0
  | c :: _ => if c = 'J' || c = 'D' then 2 else if c = 'V' then 0 else 1

-- Parameter slots and result slots.
def methodSlots? [Libraries] (descriptor : String) : Option (Nat × Nat) :=
  (Libraries.methodTypes? descriptor).map fun (parameters, result) =>
    (parameters.foldl (fun slots type => slots + type.slots) 0, result.slots)

end Descriptor

end JvmEdit
