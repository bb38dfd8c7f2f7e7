import JvmEdit.ClassFile.Error
import JvmEdit.Flow.Error
import JvmEdit.Program.Error
set_option autoImplicit false

namespace JvmEdit

inductive Warning
  | duplicateClass (name : String)
  | fieldSkipped (error : EditError)
  | methodSkipped (error : EditError)
  | bodySkipped (className method : String) (error : DecodeError)
  | flowFailed (method : String) (error : FlowError)
  | classSkipped (origin : String) (error : DecodeError)
  | classNotWritten (className : String) (error : EncodeError)
  deriving DecidableEq, Repr, Inhabited

namespace Warning

def parts : Warning → List (String × String)
  | duplicateClass name => [("message", "duplicate class definition ignored"), ("class", name)]
  | fieldSkipped error => [("message", "field skipped"), ("error", error.message)]
  | methodSkipped error => [("message", "method skipped"), ("error", error.message)]
  | bodySkipped className method error =>
      [("message", "method body skipped"), ("class", className), ("method", method),
        ("error", error.message)]
  | flowFailed method error =>
      [("message", "control flow analysis failed"), ("method", method), ("error", error.message)]
  | classSkipped origin error =>
      [("message", "class skipped"), ("origin", origin), ("error", error.message)]
  | classNotWritten className error =>
      [("message", "class not written"), ("class", className), ("error", error.message)]

end Warning

-- A value together with the warnings that arose on the way to it.
structure Logged (α : Type) where
  value : α
  warnings : List Warning := []
  deriving Repr

namespace Logged

instance : Monad Logged where
  pure value := { value }
  bind x f := { value := (f x.value).value, warnings := x.warnings ++ (f x.value).warnings }

def warn (warning : Warning) : Logged Unit := { value := (), warnings := [warning] }

end Logged

end JvmEdit
