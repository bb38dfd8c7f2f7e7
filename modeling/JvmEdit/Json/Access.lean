import JvmEdit.Json.Value
set_option autoImplicit false

namespace JvmEdit

namespace Json

def member? (j : Json) (name : String) : Option Json :=
  match j with
  | object members => members.lookup name
  | _ => none

-- A member that is not null.
def given? (j : Json) (name : String) : Option Json :=
  match j.member? name with
  | some null => none
  | found => found

def has (j : Json) (name : String) : Bool := (j.member? name).isSome

def text? : Json → Option String
  | string text => some text
  | _ => none

def toText (j : Json) : String := j.text?.getD ""

def textAt? (j : Json) (name : String) : Option String := (j.given? name).bind text?

def textAt (j : Json) (name : String) : String := (j.textAt? name).getD ""

def int? : Json → Option Int
  | number value => some value
  | _ => none

def toInt (j : Json) : Int := j.int?.getD 0

def intAt (j : Json) (name : String) (default : Int) : Int :=
  ((j.given? name).bind int?).getD default

def boolAt (j : Json) (name : String) (default : Bool) : Bool :=
  match j.member? name with
  | some (bool value) => value
  | _ => default

def toList : Json → List Json
  | array elements => elements
  | _ => []

def listAt (j : Json) (name : String) : List Json := ((j.given? name).map toList).getD []

def isTrue : Json → Bool
  | bool value => value
  | _ => false

-- An element of an array; past its end there are nulls.
def nth (j : Json) (index : Nat) : Json := j.toList.getD index null

def ofNat (n : Nat) : Json := number n

def ofOption {α : Type} (f : α → Json) (value : Option α) : Json := (value.map f).getD null

def ofText? (text : Option String) : Json := ofOption string text

def ofTexts (texts : List String) : Json := array (texts.map string)

end Json

end JvmEdit
