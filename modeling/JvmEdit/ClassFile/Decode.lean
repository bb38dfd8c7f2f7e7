import JvmEdit.ClassFile.Code
import JvmEdit.Libraries
import JvmEdit.Warning
set_option autoImplicit false

namespace JvmEdit

namespace ClassFile

def magic : UInt32 := 0xcafebabe

-- The code of a method before its instructions are read.
structure RawCode where
  maxStack : UInt16
  maxLocals : UInt16
  bytes : List UInt8
  ranges : List Code.RawRange
  locals : List Code.RawLocal
  deriving Repr, Inhabited

structure RawMethod where
  decl : MethodDecl
  code : Option RawCode
  deriving Repr, Inhabited

structure RawClass where
  header : ClassHeader
  pool : Pool
  fields : List FieldDecl
  methods : List RawMethod
  deriving Repr, Inhabited

def readAttribute (pool : Pool) : Reader (String × List UInt8) := do
  let index ← Reader.u16
  let name ← pool.utf8 index
  let length ← Reader.u32
  let body ← Reader.bytes length.toNat
  return (name, body)

def readAttributes {σ : Type} (pool : Pool) (state : σ)
    (use : σ → String → List UInt8 → Except DecodeError σ) : Reader σ := do
  let count ← Reader.u16
  loop count.toNat state
where
  loop : Nat → σ → Reader σ
    | 0, state => pure state
    | count + 1, state => do
        let (name, body) ← readAttribute pool
        let state ← use state name body
        loop count state

def parse {α : Type} (reader : Reader α) (bytes : List UInt8) : Except DecodeError α :=
  Prod.fst <$> reader.runOn bytes

def readUtf8 (pool : Pool) : Reader String := do
  let index ← Reader.u16
  pool.utf8 index

def readClassName (pool : Pool) : Reader String := do
  let index ← Reader.u16
  pool.className index

def readConstant (pool : Pool) : Reader Constant := do
  let index ← Reader.u16
  pool.constant index

def readIntegral (pool : Pool) : Reader Int64 := do
  let index ← Reader.u16
  match ← pool.constant index with
  | .int value => return value.toInt64
  | .long value => return value
  | _ => Reader.fail (.constantPool index .integral)

mutual

-- The value of an annotation element; `none` for the kinds that are read but not kept. `fuel`
-- bounds the nesting.
def readElement (pool : Pool) : Nat → Reader (Option AnnotationValue)
  | 0 => Reader.truncated
  | fuel + 1 => do
      let tag ← Reader.u8
      match Char.ofNat tag.toNat with
      | 'B' | 'C' | 'I' | 'S' | 'J' => some <$> AnnotationValue.int <$> readIntegral pool
      | 'Z' => (fun number => some (.bool (number ≠ 0))) <$> readIntegral pool
      | 's' | 'c' => some <$> AnnotationValue.text <$> readUtf8 pool
      | 'F' | 'D' => do
          Reader.skip 2
          return none
      | 'e' => do
          Reader.skip 4
          return none
      | '@' => do
          let _ ← readAnnotationBody pool fuel
          return none
      | '[' => do
          let _ ← Reader.listOf (readElement pool fuel)
          return none
      | _ => Reader.fail (.classFile (.elementTag tag))

def readAnnotationBody (pool : Pool) : Nat → Reader Annotation
  | 0 => Reader.truncated
  | fuel + 1 => do
      let descriptor ← readUtf8 pool
      let pairs ← Reader.listOf do
        let name ← readUtf8 pool
        let value ← readElement pool fuel
        return (name, value)
      return ⟨descriptor, pairs.filterMap fun (name, value) => value.map (name, ·)⟩

end

-- The annotations of an attribute body. Every level of nesting takes a byte at least.
def parseAnnotations (pool : Pool) (body : List UInt8) : Except DecodeError (List Annotation) :=
  parse (Reader.listOf (readAnnotationBody pool (2 * body.length + 2))) body

def readBootstrapMethod (pool : Pool) : Reader BootstrapMethod := do
  let handle ← readConstant pool
  let arguments ← Reader.listOf (readConstant pool)
  return ⟨handle, arguments⟩

def readField (pool : Pool) : Reader FieldDecl := do
  let access ← Reader.u16
  let name ← readUtf8 pool
  let descriptor ← readUtf8 pool
  let empty : FieldDecl := ⟨name, descriptor, none, ⟨access⟩, none, []⟩
  readAttributes pool empty fun field attr body =>
    match attr with
    | "ConstantValue" => do
        let value ← parse (readConstant pool) body
        return { field with value := some value }
    | "Signature" => do
        let signature ← parse (readUtf8 pool) body
        return { field with signature := some signature }
    | "RuntimeVisibleAnnotations" => do
        let annotations ← parseAnnotations pool body
        return { field with annotations }
    | _ => return field

def readRange (pool : Pool) : Reader Code.RawRange := do
  let start ← Reader.u16
  let stop ← Reader.u16
  let handler ← Reader.u16
  let index ← Reader.u16
  let catchType ← pool.optionalClassName index
  return ⟨start, stop, handler, catchType⟩

def readLocal (pool : Pool) : Reader Code.RawLocal := do
  let start ← Reader.u16
  let length ← Reader.u16
  let name ← readUtf8 pool
  let descriptor ← readUtf8 pool
  let slot ← Reader.u16
  return ⟨start, length, name, descriptor, none, slot⟩

structure LocalSignature where
  start : UInt16
  slot : UInt16
  signature : String
  deriving DecidableEq, Repr, Inhabited

def readLocalSignature (pool : Pool) : Reader LocalSignature := do
  let start ← Reader.u16
  let _length ← Reader.u16
  let _name ← Reader.u16
  let signature ← readUtf8 pool
  let slot ← Reader.u16
  return ⟨start, slot, signature⟩

-- Gives a generic type to the first local it fits.
def assignSignature : List Code.RawLocal → LocalSignature → List Code.RawLocal
  | [], _ => []
  | v :: locals, s =>
      if v.start = s.start ∧ v.slot = s.slot then { v with signature := some s.signature } :: locals
      else v :: assignSignature locals s

def readCode (pool : Pool) (skipDebug : Bool) : Reader RawCode := do
  let maxStack ← Reader.u16
  let maxLocals ← Reader.u16
  let length ← Reader.u32
  let bytes ← Reader.bytes length.toNat
  let ranges ← Reader.listOf (readRange pool)
  let (locals, signatures) ← readAttributes pool (([] : List Code.RawLocal), ([] : List LocalSignature))
    fun (locals, signatures) attr body =>
      if skipDebug then return (locals, signatures)
      else
        match attr with
        | "LocalVariableTable" => do
            let more ← parse (Reader.listOf (readLocal pool)) body
            return (locals ++ more, signatures)
        | "LocalVariableTypeTable" => do
            let more ← parse (Reader.listOf (readLocalSignature pool)) body
            return (locals, signatures ++ more)
        | _ => return (locals, signatures)
  return ⟨maxStack, maxLocals, bytes, ranges, signatures.foldl assignSignature locals⟩

def readMethod (pool : Pool) (skipDebug : Bool) : Reader RawMethod := do
  let access ← Reader.u16
  let name ← readUtf8 pool
  let descriptor ← readUtf8 pool
  let empty : RawMethod := ⟨⟨name, descriptor, none, ⟨access⟩, [], []⟩, none⟩
  readAttributes pool empty fun method attr body =>
    match attr with
    | "Code" => do
        let code ← parse (readCode pool skipDebug) body
        return { method with code := some code }
    | "Exceptions" => do
        let more ← parse (Reader.listOf (readClassName pool)) body
        return { method with decl.exceptions := method.decl.exceptions ++ more }
    | "Signature" => do
        let signature ← parse (readUtf8 pool) body
        return { method with decl.signature := some signature }
    | "RuntimeVisibleAnnotations" => do
        let annotations ← parseAnnotations pool body
        return { method with decl.annotations := annotations }
    | _ => return method

-- Reads a class; what follows its last attribute is not looked at.
def readClass (skipDebug : Bool) : Reader RawClass := do
  let word ← Reader.u32
  if word ≠ magic then Reader.fail (.classFile .badMagic)
  let _minor ← Reader.u16
  let version ← Reader.u16
  let pool ← Pool.read
  let access ← Reader.u16
  let name ← readClassName pool
  let superIndex ← Reader.u16
  let superName ← pool.optionalClassName superIndex
  let interfaces ← Reader.listOf (readClassName pool)
  let fields ← Reader.listOf (readField pool)
  let methods ← Reader.listOf (readMethod pool skipDebug)
  let empty : ClassHeader := ⟨name, superName, interfaces, none, ⟨access⟩, version, [], []⟩
  let header ← readAttributes pool empty fun header attr body =>
    match attr with
    | "Signature" => do
        let signature ← parse (readUtf8 pool) body
        return { header with signature := some signature }
    | "RuntimeVisibleAnnotations" => do
        let annotations ← parseAnnotations pool body
        return { header with annotations }
    | "BootstrapMethods" => do
        let bootstrapMethods ← parse (Reader.listOf (readBootstrapMethod pool)) body
        return { header with bootstrapMethods }
    | _ => return header
  return ⟨header, pool, fields, methods⟩

def methodEvents (className : String) (pool : Pool) (m : RawMethod) : Logged (List ClassEvent) :=
  match m.code with
  | none => pure [.method m.decl, .methodEnd none none]
  | some code =>
      match Code.decode code.bytes pool code.ranges code.locals with
      | .ok body =>
          pure (.method m.decl :: body.events ++ [.methodEnd (some code.maxStack) (some code.maxLocals)])
      | .error e => do
          Logged.warn (.bodySkipped className m.decl.name e)
          pure [.method m.decl, .methodEnd none none]

def events (c : RawClass) : Logged (List ClassEvent) := do
  let methods ← c.methods.mapM (methodEvents c.header.name c.pool)
  return .header c.header :: c.fields.map .field ++ methods.flatten ++ [.classEnd]

structure Decoded where
  name : String
  events : List ClassEvent
  deriving Repr, Inhabited

def decode [Libraries] (bytes : List UInt8) (skipDebug : Bool) : Except DecodeError (Logged Decoded) :=
  match Libraries.classFileFault? bytes with
  | some reason => .error (.classFile (.invalid reason))
  | none => do
      let raw ← parse (readClass skipDebug) bytes
      return (fun events => ⟨raw.header.name, events⟩) <$> events raw

end ClassFile

end JvmEdit
