import JvmEdit.Libraries
set_option autoImplicit false

namespace JvmEdit

namespace Descriptor

def baseType? : Char → Option ValueType
  | 'J' => some .long
  | 'D' => some .double
  | 'V' => some .void
  | 'Z' | 'B' | 'C' | 'S' | 'I' | 'F' => some .other
  | _ => none

-- The text after the first `;`.
def afterSemicolon? (text : List Char) : Option (List Char) :=
  match text.dropWhile (· ≠ ';') with
  | [] => none
  | _ :: rest => some rest

-- The type in front of a text that has no leading brackets, and what follows it.
def elementType? : List Char → Option (ValueType × List Char)
  | [] => none
  | 'L' :: rest => (afterSemicolon? rest).map fun rest => (.other, rest)
  | c :: rest => (baseType? c).map fun type => (type, rest)

-- More than 255 dimensions are refused.
def nextType? (text : List Char) : Option (ValueType × List Char) :=
  let dimensions := (text.takeWhile (· = '[')).length
  let element := elementType? (text.dropWhile (· = '['))
  if dimensions = 0 then element
  else if dimensions ≤ 255 then element.map fun result => (.other, result.2)
  else none

theorem after_semicolon?_length (text rest : List Char) (found : afterSemicolon? text = some rest) :
    rest.length < text.length := by
  unfold afterSemicolon? at found
  have bound := (List.dropWhile_suffix (p := (· ≠ ';')) (l := text)).length_le
  split at found
  · contradiction
  · rename_i split
    obtain rfl := Option.some.inj found
    rw [split, List.length_cons] at bound
    omega

theorem element_type?_length (text : List Char) (result : ValueType × List Char)
    (found : elementType? text = some result) : result.2.length < text.length := by
  unfold elementType? at found
  split at found
  · contradiction
  · rename_i rest
    obtain ⟨tail, after, rfl⟩ := Option.map_eq_some_iff.mp found
    have shorter := after_semicolon?_length rest tail after
    simp only [List.length_cons]
    omega
  · obtain ⟨type, _, rfl⟩ := Option.map_eq_some_iff.mp found
    simp

theorem next_type?_length (text : List Char) (result : ValueType × List Char)
    (found : nextType? text = some result) : result.2.length < text.length := by
  have bound := (List.dropWhile_suffix (p := (· = '[')) (l := text)).length_le
  simp only [nextType?] at found
  split at found
  · have shorter := element_type?_length _ result found
    omega
  · split at found
    · obtain ⟨inner, element, rfl⟩ := Option.map_eq_some_iff.mp found
      have shorter := element_type?_length _ inner element
      dsimp only
      omega
    · contradiction

-- The parameters up to the closing parenthesis, then one result type.
def typesFrom? (text : List Char) : Option (List ValueType × ValueType) :=
  match text with
  | ')' :: rest => (nextType? rest).map fun result => ([], result.1)
  | text =>
      match _found : nextType? text with
      | none => none
      | some (type, rest) => (typesFrom? rest).map fun (types, result) => (type :: types, result)
termination_by text.length
decreasing_by exact next_type?_length _ _ _found

-- Text after the result type is not looked at.
def methodTypes? (descriptor : String) : Option (List ValueType × ValueType) :=
  match descriptor.toList with
  | '(' :: rest => typesFrom? rest
  | _ => none

end Descriptor

end JvmEdit
