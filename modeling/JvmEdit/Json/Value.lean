import JvmEdit.Text.Quoted
set_option autoImplicit false

namespace JvmEdit

-- An object keeps its members in the order they were given.
inductive Json
  | null
  | bool (value : Bool)
  | number (value : Int)
  | string (text : String)
  | array (elements : List Json)
  | object (members : List (String × Json))
  deriving Repr, Inhabited

namespace Json

def hex4 (n : Nat) : String :=
  let digits := Nat.toDigits 16 n
  String.ofList (List.replicate (4 - digits.length) '0' ++ digits)

-- A control character is written by its letter where it has one, and by its number otherwise.
def escape (c : Char) : String :=
  match c with
  | '"' => "\\\""
  | '\\' => "\\\\"
  | '\x08' => "\\b"
  | '\x0c' => "\\f"
  | '\n' => "\\n"
  | '\r' => "\\r"
  | '\t' => "\\t"
  | c => if c.toNat < 0x20 then "\\u" ++ hex4 c.toNat else String.singleton c

def quote (text : String) : String := "\"" ++ String.join (text.toList.map escape) ++ "\""

def indent (depth : Nat) : String := String.ofList (List.replicate (2 * depth) ' ')

-- Lines between brackets, one step further in than the brackets.
def enclose (opening closing : String) (depth : Nat) (lines : List String) : String :=
  if lines.isEmpty then opening ++ closing
  else
    opening ++ "\n" ++ String.intercalate ",\n" (lines.map fun line => indent (depth + 1) ++ line) ++
      "\n" ++ indent depth ++ closing

mutual

def renderAt (depth : Nat) : Json → String
  | null => "null"
  | bool value => if value then "true" else "false"
  | number value => toString value
  | string text => quote text
  | array elements => enclose "[" "]" depth (renderElements (depth + 1) elements)
  | object members => enclose "\x7b" "\x7d" depth (renderMembers (depth + 1) members)

def renderElements (depth : Nat) : List Json → List String
  | [] => []
  | element :: elements => renderAt depth element :: renderElements depth elements

def renderMembers (depth : Nat) : List (String × Json) → List String
  | [] => []
  | (name, value) :: members =>
      (quote name ++ ": " ++ renderAt depth value) :: renderMembers depth members

end

def render (value : Json) : String := renderAt 0 value

mutual

def compact : Json → String
  | null => "null"
  | bool value => if value then "true" else "false"
  | number value => toString value
  | string text => quote text
  | array elements => "[" ++ String.intercalate "," (compactElements elements) ++ "]"
  | object members => "\x7b" ++ String.intercalate "," (compactMembers members) ++ "\x7d"

def compactElements : List Json → List String
  | [] => []
  | element :: elements => compact element :: compactElements elements

def compactMembers : List (String × Json) → List String
  | [] => []
  | (name, value) :: members => (quote name ++ ":" ++ compact value) :: compactMembers members

end

def ofMembers (members : List (String × Option Json)) : Json :=
  object (members.filterMap fun (name, value) => value.map fun v => (name, v))

def nonEmpty (elements : List Json) : Option Json :=
  if elements.isEmpty then none else some (array elements)

end Json

end JvmEdit
