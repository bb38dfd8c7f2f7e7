import JvmEdit.ClassFile.Assembler
import JvmEdit.ClassFile.Decode
import JvmEdit.Load.Builder
import JvmEdit.Program.Basic
set_option autoImplicit false

namespace JvmEdit

namespace ClassFile

-- The newest version that is verified without frames.
def inferenceVersion : UInt16 := 50

def oldestVersion : UInt16 := 45

abbrev Attribute := UInt16 × List UInt8

-- The name is asked for after what is in the body.
def named (name : String) (body : List UInt8) : Encoder Attribute := do
  let name ← PoolBuilder.utf8 name
  return (name, body)

def attributeBytes (attrs : List Attribute) : List UInt8 :=
  Bytes.count16 attrs.length ++
    attrs.flatMap fun (name, body) => Bytes.u16 name ++ Bytes.count32 body.length ++ body

def listBytes {α : Type} (items : List α) (write : α → Encoder (List UInt8)) :
    Encoder (List UInt8) := do
  let written ← items.mapM write
  return Bytes.count16 items.length ++ written.flatten

def indexBytes (index : Encoder UInt16) : Encoder (List UInt8) := Bytes.u16 <$> index

def signatureAttribute : Option String → Encoder (List Attribute)
  | none => pure []
  | some signature => do
      let body ← indexBytes (PoolBuilder.utf8 signature)
      let written ← named "Signature" body
      return [written]

def tag (c : Char) : UInt8 := UInt8.ofNat c.toNat

def elementBytes : AnnotationValue → Encoder (List UInt8)
  | .int value =>
      let small := value.toInt32
      if small.toInt64 = value then do
        let index ← indexBytes (PoolBuilder.constant (.int small))
        return tag 'I' :: index
      else do
        let index ← indexBytes (PoolBuilder.constant (.long value))
        return tag 'J' :: index
  | .bool value => do
      let index ← indexBytes (PoolBuilder.constant (.int (if value then 1 else 0)))
      return tag 'Z' :: index
  | .text value => do
      let index ← indexBytes (PoolBuilder.utf8 value)
      return tag 's' :: index

def annotationBytes (a : Annotation) : Encoder (List UInt8) := do
  let descriptor ← indexBytes (PoolBuilder.utf8 a.descriptor)
  let values ← listBytes a.values fun (name, value) => do
    let name ← indexBytes (PoolBuilder.utf8 name)
    let value ← elementBytes value
    return name ++ value
  return descriptor ++ values

def annotationAttribute (annotations : List Annotation) : Encoder (List Attribute) := do
  if annotations.isEmpty then return []
  let body ← listBytes annotations annotationBytes
  let written ← named "RuntimeVisibleAnnotations" body
  return [written]

def fieldBytes (f : Field) : Encoder (List UInt8) := do
  let name ← indexBytes (PoolBuilder.utf8 f.name)
  let descriptor ← indexBytes (PoolBuilder.utf8 f.descriptor)
  let value ← match f.value with
    | none => pure []
    | some value => do
        let body ← indexBytes (PoolBuilder.constant value)
        let written ← named "ConstantValue" body
        pure [written]
  let signature ← signatureAttribute f.signature
  let annotations ← annotationAttribute f.annotations
  return Bytes.u16 f.access.bits ++ name ++ descriptor ++
    attributeBytes (value ++ signature ++ annotations)

-- The greatest height of the body, when its analysis succeeds; else what the method came with.
def maxStack [Libraries] (m : Method) : UInt16 :=
  match (Flow.analyse m.code m.tryRanges none).result with
  | .ok frames => UInt16.ofNat (min frames.maxHeight 65535)
  | .error _ => m.maxStack.getD 65535

def isWideLocal (op : Opcode) : Bool :=
  op = 0x16 || op = 0x18 || op = 0x37 || op = 0x39 || (0x1e ≤ op && op ≤ 0x21) ||
    (0x26 ≤ op && op ≤ 0x29) || (0x3f ≤ op && op ≤ 0x42) || (0x47 ≤ op && op ≤ 0x4a)

-- Room for the parameters, for every slot that is touched or named, and for what the method came
-- with.
def maxLocals [Libraries] (m : Method) : UInt16 :=
  let parameters := ((Descriptor.methodSlots? m.descriptor).map Prod.fst).getD 0
  let receiver := if m.access.isStatic then 0 else 1
  let touched := m.code.toList.foldl (fun needed i =>
    match LocalVariable.slotOf? i.opcode i.operand with
    | some slot => max needed (slot.toNat + if isWideLocal i.opcode then 2 else 1)
    | none => needed) (parameters + receiver)
  let namedSlots := m.locals.foldl (fun needed v =>
    max needed (v.slot.toNat + max (Descriptor.fieldSlots v.descriptor) 1)) touched
  UInt16.ofNat (min (max namedSlots ((m.maxLocals.map UInt16.toNat).getD 0)) 65535)

def offset16 (c : Assembler.Context) (layout : Assembler.Layout) (label : LabelId) :
    Encoder UInt16 := do
  let offset ← c.target layout label
  return UInt16.ofNat offset

-- The protected ranges that are not empty.
def rangeBytes (c : Assembler.Context) (layout : Assembler.Layout) (range : TryRange) :
    Encoder (List (List UInt8)) := do
  let start ← offset16 c layout range.start
  let stop ← offset16 c layout range.stop
  if stop ≤ start then return []
  let catchType ← match range.catchType with
    | some name => PoolBuilder.className name
    | none => pure 0
  let handler ← offset16 c layout range.handler
  return [Bytes.u16 start ++ Bytes.u16 stop ++ Bytes.u16 handler ++ Bytes.u16 catchType]

def localBytes (c : Assembler.Context) (layout : Assembler.Layout) (v : LocalVariable) :
    Encoder (List UInt8 × Option (List UInt8)) := do
  let start ← offset16 c layout v.start
  let stop ← offset16 c layout v.stop
  let place := Bytes.u16 start ++ Bytes.u16 (if stop < start then 0 else stop - start)
  let name ← indexBytes (PoolBuilder.utf8 v.name)
  let descriptor ← indexBytes (PoolBuilder.utf8 v.descriptor)
  let row := place ++ name ++ descriptor ++ Bytes.u16 v.slot
  match v.signature with
  | none => return (row, none)
  | some signature => do
      let name ← indexBytes (PoolBuilder.utf8 v.name)
      let signature ← indexBytes (PoolBuilder.utf8 signature)
      return (row, some (place ++ name ++ signature ++ Bytes.u16 v.slot))

-- Signatures are counted in two bytes as they come. The variable whose signature is one too many,
-- and its position.
def uncountable (locals : List LocalVariable) : Option (LocalVariable × Nat) :=
  (locals.zipIdx.filter (·.1.signature.isSome))[65535]?

def localAttributes (c : Assembler.Context) (layout : Assembler.Layout)
    (locals : List LocalVariable) : Encoder (List Attribute) := do
  if locals.isEmpty then return []
  if let some (v, position) := uncountable locals then
    let _ ← (locals.take position).mapM (localBytes c layout)
    let _ ← localBytes c layout { v with signature := none }
    throw .arithmetic
  let rows ← locals.mapM (localBytes c layout)
  let table ← named "LocalVariableTable"
    (Bytes.count16 rows.length ++ rows.flatMap Prod.fst)
  let typed := rows.filterMap Prod.snd
  if typed.isEmpty then return [table]
  let types ← named "LocalVariableTypeTable" (Bytes.count16 typed.length ++ typed.flatten)
  return [table, types]

def codeBytes [Libraries] (m : Method) (qualified : String) : Encoder (List UInt8) := do
  let lines ← Assembler.lines m.code.toList
  let c : Assembler.Context := ⟨qualified, Flow.labelTable m.code.toList⟩
  let layout ← c.layout lines
  let code ← c.emit layout lines
  let ranges ← m.tryRanges.mapM (rangeBytes c layout)
  let attrs ← localAttributes c layout m.locals
  return Bytes.u16 (maxStack m) ++ Bytes.u16 (maxLocals m) ++ Bytes.count32 code.length ++ code ++
    Bytes.count16 ranges.flatten.length ++ ranges.flatten.flatten ++ attributeBytes attrs

def methodBytes [Libraries] (className : String) (m : Method) : Encoder (List UInt8) := do
  let name ← indexBytes (PoolBuilder.utf8 m.name)
  let descriptor ← indexBytes (PoolBuilder.utf8 m.descriptor)
  let code ←
    if m.code.isEmpty then pure []
    else do
      let body ← codeBytes m (className ++ "." ++ m.name ++ m.descriptor)
      let written ← named "Code" body
      pure [written]
  let exceptions ←
    if m.exceptions.isEmpty then pure []
    else do
      let body ← listBytes m.exceptions fun name => indexBytes (PoolBuilder.className name)
      let written ← named "Exceptions" body
      pure [written]
  let signature ← signatureAttribute m.signature
  let annotations ← annotationAttribute m.annotations
  return Bytes.u16 m.access.bits ++ name ++ descriptor ++
    attributeBytes (code ++ exceptions ++ signature ++ annotations)

def bootstrapBytes (b : BootstrapMethod) : Encoder (List UInt8) := do
  let handle ← indexBytes (PoolBuilder.constant b.handle)
  let arguments ← listBytes b.arguments fun c => indexBytes (PoolBuilder.constant c)
  return handle ++ arguments

def bootstrapAttribute (methods : List BootstrapMethod) : Encoder (List Attribute) := do
  if methods.isEmpty then return []
  let body ← listBytes methods bootstrapBytes
  let written ← named "BootstrapMethods" body
  return [written]

-- Instructions that only files newer than the inference version can hold.
def needsModernVersion : Operand → Bool
  | .dynamicCall _ => true
  | .constant (.methodHandle ..) => true
  | .constant (.methodType _) => true
  | .constant (.dynamic ..) => true
  | _ => false

def isModern (c : Class) (m : Method) : Bool :=
  m.code.toList.any (fun i => needsModernVersion i.operand) ||
    (c.access.isInterface && !m.access.isAbstract && m.name ≠ "<clinit>")

def writtenVersion (c : Class) (modern : Bool) : UInt16 :=
  if modern then max c.version (inferenceVersion + 1)
  else max oldestVersion (min c.version inferenceVersion)

def bodyBytes [Libraries] (c : Class) (fields : List Field) (methods : List Method) :
    Encoder (List UInt8) := do
  let name ← indexBytes (PoolBuilder.className c.name)
  let superName ← indexBytes (match c.superName with
    | some name => PoolBuilder.className name
    | none => pure 0)
  let interfaces ← listBytes c.interfaces fun name => indexBytes (PoolBuilder.className name)
  let fields ← listBytes fields fieldBytes
  let methods ← listBytes methods (methodBytes c.name)
  let signature ← signatureAttribute c.signature
  let annotations ← annotationAttribute c.annotations
  let bootstrap ← bootstrapAttribute c.bootstrapMethods
  return Bytes.u16 c.access.bits ++ name ++ superName ++ interfaces ++ fields ++ methods ++
    attributeBytes (signature ++ annotations ++ bootstrap)

def encode [Libraries] (p : Program) (id : ClassId) : Except EncodeError (List UInt8) :=
  match p.class? id with
  | none => .error (.unknownClass id)
  | some c => do
      let fields := c.fields.filterMap p.field?
      let methods := c.methods.filterMap p.method?
      let (body, pool) ← bodyBytes c fields methods {}
      let version := writtenVersion c (methods.any (isModern c))
      return Bytes.u32 magic ++ Bytes.u16 0 ++ Bytes.u16 version ++ pool.write ++ body

end ClassFile

end JvmEdit
