import JvmEdit.Data.Table
import JvmEdit.Ident
set_option autoImplicit false

namespace JvmEdit

namespace Key

def field (owner name : String) : String := owner ++ "." ++ name

def method (owner name descriptor : String) : String := owner ++ "." ++ name ++ "." ++ descriptor

end Key

structure NameIndex where
  classes : Table String ClassId := .empty
  fields : Table String FieldId := .empty
  methods : Table String MethodId := .empty
  deriving DecidableEq, Repr, Inhabited

namespace NameIndex

def empty : NameIndex := {}

def insertClass (x : NameIndex) (name : String) (id : ClassId) : NameIndex :=
  { x with classes := x.classes.insert name id }

def insertField (x : NameIndex) (key : String) (id : FieldId) : NameIndex :=
  { x with fields := x.fields.insert key id }

def insertMethod (x : NameIndex) (key : String) (id : MethodId) : NameIndex :=
  { x with methods := x.methods.insert key id }

def claimClass? (x : NameIndex) (name : String) (id : ClassId) : Option NameIndex :=
  if x.classes.contains name then none else some (x.insertClass name id)

-- Forgets a key only if it still names `id`.
def eraseClass (x : NameIndex) (name : String) (id : ClassId) : NameIndex :=
  { x with classes := (x.classes.eraseIf name id).1 }

def eraseField (x : NameIndex) (key : String) (id : FieldId) : NameIndex :=
  { x with fields := (x.fields.eraseIf key id).1 }

def eraseMethod (x : NameIndex) (key : String) (id : MethodId) : NameIndex :=
  { x with methods := (x.methods.eraseIf key id).1 }

end NameIndex

end JvmEdit
