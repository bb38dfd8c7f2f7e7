set_option autoImplicit false

namespace JvmEdit

structure Settings where
  workerThreads : Option Nat := none
  annotateComplexity : Bool := false
  annotateTryCatchCount : Bool := false
  annotateLocals : Bool := false
  annotateChanges : Bool := false
  skipDebug : Bool := true
  deriving DecidableEq, Repr, Inhabited

end JvmEdit
