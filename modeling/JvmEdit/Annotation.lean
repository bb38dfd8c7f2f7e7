set_option autoImplicit false

namespace JvmEdit

inductive AnnotationValue
  | int (value : Int64)
  | bool (value : Bool)
  | text (value : String)
  deriving DecidableEq, Repr, Inhabited

structure Annotation where
  descriptor : String
  values : List (String × AnnotationValue)
  deriving DecidableEq, Repr, Inhabited

namespace Annotation

def named (name : String) (values : List (String × AnnotationValue)) : Annotation :=
  ⟨"L" ++ name ++ ";", values⟩

def value? (a : Annotation) (key : String) : Option AnnotationValue := a.values.lookup key

end Annotation

end JvmEdit
