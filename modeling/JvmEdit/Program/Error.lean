import JvmEdit.Ident
set_option autoImplicit false

namespace JvmEdit

inductive EditError
  | unknownClass (id : ClassId)
  | unknownField (id : FieldId)
  | unknownMethod (id : MethodId)
  -- Another entity already goes by this key.
  | nameTaken (key : String)
  -- Constructors and static initialisers keep their names and their owner.
  | constructor (id : MethodId)
  | sameOwner
  deriving DecidableEq, Repr, Inhabited

namespace EditError

def message : EditError → String
  | unknownClass id => s!"class {id} is not loaded"
  | unknownField id => s!"field {id} is not loaded"
  | unknownMethod id => s!"method {id} is not loaded"
  | nameTaken key => s!"`{key}` is already taken"
  | constructor id => s!"constructor {id} cannot be renamed"
  | sameOwner => "member is already declared by the destination class"

end EditError

end JvmEdit
