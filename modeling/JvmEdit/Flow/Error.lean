set_option autoImplicit false

namespace JvmEdit

inductive FlowError
  | underflow (position : Nat)
  | inconsistent (position expected found : Nat)
  | overflow (position height limit : Nat)
  | fallOffEnd (position : Nat)
  | unknownLabel (position : Nat)
  | descriptor (position : Nat) (text : String)
  deriving DecidableEq, Repr, Inhabited

namespace FlowError

def message : FlowError → String
  | underflow position => s!"stack underflow at instruction {position}"
  | inconsistent position expected found =>
      s!"inconsistent stack height at instruction {position}: {expected} vs {found}"
  | overflow position height limit =>
      s!"stack height {height} exceeds max_stack {limit} at instruction {position}"
  | fallOffEnd position =>
      s!"execution can fall off the end of the code after instruction {position}"
  | unknownLabel position =>
      s!"instruction {position} jumps to a label that is not in the method"
  | descriptor position text => s!"malformed descriptor `{text}` at instruction {position}"

end FlowError

end JvmEdit
