import JvmEdit.Access
import JvmEdit.Annotation
import JvmEdit.Instruction
set_option autoImplicit false

namespace JvmEdit

structure ClassHeader where
  name : String
  superName : Option String
  interfaces : List String
  signature : Option String
  access : Flags
  version : UInt16
  annotations : List Annotation
  bootstrapMethods : List BootstrapMethod
  deriving DecidableEq, Repr, Inhabited

structure FieldDecl where
  name : String
  descriptor : String
  signature : Option String
  access : Flags
  value : Option Constant
  annotations : List Annotation
  deriving DecidableEq, Repr, Inhabited

structure MethodDecl where
  name : String
  descriptor : String
  signature : Option String
  access : Flags
  exceptions : List String
  annotations : List Annotation
  deriving DecidableEq, Repr, Inhabited

structure TryDecl where
  start : LabelId
  stop : LabelId
  handler : LabelId
  catchType : Option String
  deriving DecidableEq, Repr, Inhabited

structure LocalDecl where
  name : String
  descriptor : String
  signature : Option String
  start : LabelId
  stop : LabelId
  slot : UInt16
  deriving DecidableEq, Repr, Inhabited

inductive ClassEvent
  | header (header : ClassHeader)
  | field (decl : FieldDecl)
  | method (decl : MethodDecl)
  | newLabel
  | instruction (opcode : Opcode) (operand : Operand)
  | tryRange (range : TryDecl)
  | localVariable (decl : LocalDecl)
  | methodEnd (maxStack maxLocals : Option UInt16)
  | classEnd
  deriving DecidableEq, Repr, Inhabited

end JvmEdit
