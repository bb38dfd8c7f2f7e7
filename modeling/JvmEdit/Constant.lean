set_option autoImplicit false

namespace JvmEdit

-- The two floating-point kinds are kept as their bit patterns.
inductive Constant
  | int (value : Int32)
  | float (bits : UInt32)
  | long (value : Int64)
  | double (bits : UInt64)
  | string (text : String)
  -- An internal class name or an array descriptor.
  | classRef (name : String)
  | methodType (descriptor : String)
  | methodHandle (kind : UInt8) (owner name descriptor : String) (isInterface : Bool)
  -- Computed by the bootstrap method at that index of the class that holds it.
  | dynamic (name descriptor : String) (bootstrap : UInt16)
  deriving DecidableEq, Repr, Inhabited

namespace Constant

def slots : Constant → Nat
  | long _ | double _ => 2
  | dynamic _ descriptor _ => if descriptor = "J" || descriptor = "D" then 2 else 1
  | _ => 1

end Constant

structure BootstrapMethod where
  handle : Constant
  arguments : List Constant
  deriving DecidableEq, Repr, Inhabited

end JvmEdit
