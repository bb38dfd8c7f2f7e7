import JvmEdit.ClassFile.Bytes
import JvmEdit.Text.ModifiedUtf8
set_option autoImplicit false

namespace JvmEdit

namespace Layout

abbrev Part := List UInt8 → Option (List UInt8)

def skip (count : Nat) : Part := fun bytes =>
  if (bytes.take count).length = count then some (bytes.drop count) else none

def both (first second : Part) : Part := fun bytes => (first bytes).bind second

def u8? : List UInt8 → Option (Nat × List UInt8)
  | a :: rest => some (a.toNat, rest)
  | _ => none

def u16? : List UInt8 → Option (Nat × List UInt8)
  | a :: b :: rest => some ((Bytes.ofU16 a b).toNat, rest)
  | _ => none

def u32? : List UInt8 → Option (Nat × List UInt8)
  | a :: b :: c :: d :: rest => some ((Bytes.ofU32 a b c d).toNat, rest)
  | _ => none

def repeated (part : Part) : Nat → Part
  | 0 => some
  | count + 1 => fun bytes => (part bytes).bind (repeated part count)

-- A one-byte count and as many parts.
def list8 (part : Part) : Part := fun bytes =>
  (u8? bytes).bind fun (count, rest) => repeated part count rest

def list16 (part : Part) : Part := fun bytes =>
  (u16? bytes).bind fun (count, rest) => repeated part count rest

def block32 : Part := fun bytes => (u32? bytes).bind fun (count, rest) => skip count rest

abbrev Texts := Array (Option (List UInt8))

def entryWidth? (tag : Nat) : Option Nat :=
  match tag with
  | 7 | 8 | 16 | 19 | 20 => some 2
  | 15 => some 3
  | 3 | 4 | 9 | 10 | 11 | 12 | 17 | 18 => some 4
  | 5 | 6 => some 8
  | _ => none

def textIsWellFormed (bytes : List UInt8) : Bool :=
  (Utf8.decode? bytes).isSome || ModifiedUtf8.isWellFormed bytes

-- Reads entries until `count` slots are filled; every entry fills one slot or two.
def pool (count : Nat) : Nat → Texts → List UInt8 → Option (Texts × List UInt8)
  | 0, texts, bytes => some (texts, bytes)
  | fuel + 1, texts, bytes =>
      if count ≤ texts.size then some (texts, bytes)
      else
        (u8? bytes).bind fun (tag, rest) =>
          if tag = 1 then
            (u16? rest).bind fun (length, rest) =>
              let text := rest.take length
              if text.length = length && textIsWellFormed text then
                pool count fuel (texts.push (some text)) (rest.drop length)
              else none
          else
            (entryWidth? tag).bind fun width =>
              (skip width rest).bind fun rest =>
                let texts := texts.push none
                pool count fuel (if tag = 5 || tag = 6 then texts.push none else texts) rest

mutual

-- The value of an annotation element; `fuel` bounds the nesting.
def elementValue : Nat → Part
  | 0, _ => none
  | fuel + 1, bytes =>
      (u8? bytes).bind fun (tag, rest) =>
        match Char.ofNat tag with
        | 'B' | 'C' | 'D' | 'F' | 'I' | 'J' | 'S' | 'Z' | 's' | 'c' => skip 2 rest
        | 'e' => skip 4 rest
        | '@' => annotationBody fuel rest
        | '[' => list16 (elementValue fuel) rest
        | _ => none

def annotationBody : Nat → Part
  | 0, _ => none
  | fuel + 1, bytes => both (skip 2) (list16 (both (skip 2) (elementValue fuel))) bytes

end

def targetInfo (type : Nat) : Part :=
  if type ≤ 0x01 then skip 1
  else if type = 0x10 then skip 2
  else if type = 0x11 || type = 0x12 then skip 2
  else if type = 0x13 || type = 0x14 || type = 0x15 then skip 0
  else if type = 0x16 then skip 1
  else if type = 0x17 then skip 2
  else if type = 0x40 || type = 0x41 then list16 (skip 6)
  else if 0x42 ≤ type && type ≤ 0x46 then skip 2
  else if 0x47 ≤ type && type ≤ 0x4b then skip 3
  else fun _ => none

def typeAnnotationBody (fuel : Nat) : Part := fun bytes =>
  (u8? bytes).bind fun (type, rest) =>
    both (targetInfo type) (both (list8 (skip 2)) (annotationBody fuel)) rest

def verificationType : Part := fun bytes =>
  (u8? bytes).bind fun (tag, rest) =>
    if tag ≤ 6 then some rest else if tag = 7 || tag = 8 then skip 2 rest else none

def stackFrame : Part := fun bytes =>
  (u8? bytes).bind fun (type, rest) =>
    if type ≤ 63 then some rest
    else if type ≤ 127 then verificationType rest
    else if type ≤ 246 then none
    else if type = 247 then both (skip 2) verificationType rest
    else if type ≤ 251 then skip 2 rest
    else if type ≤ 254 then both (skip 2) (repeated verificationType (type - 251)) rest
    else both (skip 2) (both (list16 verificationType) (list16 verificationType)) rest

mutual

-- A named attribute, read by its own layout whatever length it claims.
def namedAttribute (texts : Texts) : Nat → Part
  | 0, _ => none
  | fuel + 1, bytes =>
      (u16? bytes).bind fun (name, rest) =>
        ((texts[name]?).join).bind fun name =>
          (u32? rest).bind fun (length, rest) =>
            attributeBody texts fuel (String.ofList (name.map fun b => Char.ofNat b.toNat)) length rest

def attributeBody (texts : Texts) : Nat → String → Nat → Part
  | 0, _, _, _ => none
  | fuel + 1, name, length, bytes =>
      match name with
      | "ConstantValue" | "SourceFile" | "Signature" | "NestHost" => skip 2 bytes
      | "Code" =>
          both (skip 4) (both block32 (both (list16 (skip 8)) (list16 (namedAttribute texts fuel)))) bytes
      | "Exceptions" | "NestMembers" | "PermittedSubclasses" => list16 (skip 2) bytes
      | "Synthetic" | "Deprecated" => some bytes
      | "EnclosingMethod" => skip 4 bytes
      | "LineNumberTable" => list16 (skip 4) bytes
      | "LocalVariableTable" | "LocalVariableTypeTable" => list16 (skip 10) bytes
      | "InnerClasses" => list16 (skip 8) bytes
      | "RuntimeVisibleAnnotations" =>
          if (bytes.take length).length = length then list16 (annotationBody fuel) bytes else none
      | "RuntimeInvisibleAnnotations" => list16 (annotationBody fuel) bytes
      | "RuntimeVisibleParameterAnnotations" => list8 (list16 (annotationBody fuel)) bytes
      | "RuntimeVisibleTypeAnnotations" => list16 (typeAnnotationBody fuel) bytes
      | "AnnotationDefault" =>
          if (bytes.take length).length = length then elementValue fuel bytes else none
      | "StackMapTable" => list16 stackFrame bytes
      | "BootstrapMethods" => list16 (both (skip 2) (list16 (skip 2))) bytes
      | "MethodParameters" => list8 (skip 4) bytes
      | "Record" => list16 (both (skip 4) (list16 (namedAttribute texts fuel))) bytes
      | _ => none

end

def member (texts : Texts) (fuel : Nat) : Part :=
  both (skip 6) (list16 (namedAttribute texts fuel))

def magic : List UInt8 := [0xca, 0xfe, 0xba, 0xbe]

def isClassFile (bytes : List UInt8) : Bool :=
  let fuel := 2 * bytes.length + 2
  let remainder := do
    let rest ← if bytes.take 4 = magic then some (bytes.drop 4) else none
    let rest ← skip 4 rest
    let (count, rest) ← u16? rest
    let (texts, rest) ← pool count count #[none] rest
    let rest ← skip 6 rest
    let rest ← list16 (skip 2) rest
    let rest ← list16 (member texts fuel) rest
    let rest ← list16 (member texts fuel) rest
    list16 (namedAttribute texts fuel) rest
  remainder = some []

end Layout

end JvmEdit
