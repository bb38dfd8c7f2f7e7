import JvmEdit.Describe.Code
import JvmEdit.Load.Event
set_option autoImplicit false

namespace JvmEdit

namespace ClassHeader

def usualSuper : String := "java/lang/Object"

def ofJson (j : Json) : ClassHeader :=
  { name := j.textAt "name"
    superName := if j.has "super" then j.textAt? "super" else some usualSuper
    interfaces := (j.listAt "interfaces").map Json.toText
    signature := j.textAt? "signature"
    access := ⟨Describe.half (j.intAt "access" 33)⟩
    version := Describe.half (j.intAt "version" 50)
    annotations := (j.listAt "annotations").map .ofJson
    bootstrapMethods := (j.listAt "bootstrap").map .ofJson }

def toJson (h : ClassHeader) : Json :=
  .object [("name", .string h.name), ("super", .ofText? h.superName),
    ("interfaces", .ofTexts h.interfaces), ("signature", .ofText? h.signature),
    ("access", .ofNat h.access.bits.toNat), ("version", .ofNat h.version.toNat),
    ("annotations", .array (h.annotations.map Annotation.toJson)),
    ("bootstrap", .array (h.bootstrapMethods.map BootstrapMethod.toJson))]

end ClassHeader

namespace FieldDecl

def ofJson (j : Json) : FieldDecl :=
  { name := j.textAt "name"
    descriptor := j.textAt "desc"
    signature := j.textAt? "signature"
    access := ⟨Describe.half (j.intAt "access" 2)⟩
    value := (j.given? "value").map .ofJson
    annotations := (j.listAt "annotations").map .ofJson }

def toJson (d : FieldDecl) : Json :=
  .object [("name", .string d.name), ("desc", .string d.descriptor),
    ("signature", .ofText? d.signature), ("access", .ofNat d.access.bits.toNat),
    ("value", .ofOption Constant.toJson d.value),
    ("annotations", .array (d.annotations.map Annotation.toJson))]

end FieldDecl

namespace MethodDecl

def ofJson (j : Json) : MethodDecl :=
  { name := j.textAt "name"
    descriptor := j.textAt "desc"
    signature := j.textAt? "signature"
    access := ⟨Describe.half (j.intAt "access" 1)⟩
    exceptions := (j.listAt "exceptions").map Json.toText
    annotations := (j.listAt "annotations").map .ofJson }

def toJson (d : MethodDecl) : Json :=
  .object [("name", .string d.name), ("desc", .string d.descriptor),
    ("signature", .ofText? d.signature), ("access", .ofNat d.access.bits.toNat),
    ("exceptions", .ofTexts d.exceptions),
    ("annotations", .array (d.annotations.map Annotation.toJson))]

end MethodDecl

namespace TryDecl

def ofJson (j : Json) : LabelNames TryDecl := do
  let start ← LabelNames.ofJson (j.nth 0)
  let stop ← LabelNames.ofJson (j.nth 1)
  let handler ← LabelNames.ofJson (j.nth 2)
  return ⟨start, stop, handler, (j.nth 3).text?⟩

def toJson (label : LabelId → Json) (t : TryDecl) : Json :=
  .array [label t.start, label t.stop, label t.handler, .ofText? t.catchType]

end TryDecl

namespace LocalDecl

def ofJson (j : Json) : LabelNames LocalDecl := do
  let start ← LabelNames.number (j.textAt "start")
  let stop ← LabelNames.number (j.textAt "end")
  return {
    name := j.textAt "name", descriptor := j.textAt "desc", signature := j.textAt? "signature"
    start, stop, slot := Describe.half (j.intAt "index" 0) }

def toJson (label : LabelId → Json) (v : LocalDecl) : Json :=
  .object [("name", .string v.name), ("desc", .string v.descriptor),
    ("signature", .ofText? v.signature), ("start", label v.start), ("end", label v.stop),
    ("index", .ofNat v.slot.toNat)]

end LocalDecl

namespace Describe

-- The label names of the current method, and the parts read so far, newest first.
structure Reading where
  names : Array String := #[]
  reversed : List ClassEvent := []
  deriving Inhabited

abbrev PartReader := StateM Reading

namespace PartReader

def emit (event : ClassEvent) : PartReader Unit :=
  modify fun r => { r with reversed := event :: r.reversed }

-- Reads something that mentions labels; every new name makes a label first.
def naming {α : Type} (reader : LabelNames α) (event : α → ClassEvent) : PartReader Unit := do
  let r ← get
  let (value, names) := reader.run r.names
  let made := List.replicate (names.size - r.names.size) ClassEvent.newLabel
  set { names, reversed := event value :: made ++ r.reversed : Reading }

def instruction (j : Json) : PartReader Unit :=
  naming (Operand.instructionOfJson j) fun (op, operand) => .instruction op operand

def tryRange (j : Json) : PartReader Unit := naming (TryDecl.ofJson j) .tryRange

def localVariable (j : Json) : PartReader Unit := naming (LocalDecl.ofJson j) .localVariable

def method (j : Json) : PartReader Unit := do
  modify fun r => { r with names := #[] }
  emit (.method (.ofJson j))

def repeatTimes (reader : PartReader Unit) : Nat → PartReader Unit
  | 0 => pure ()
  | count + 1 => do
      reader
      repeatTimes reader count

-- An instruction, a sequence to be repeated, or loads of consecutive numbers.
def code (j : Json) : PartReader Unit := do
  match j.nth 0 with
  | .string "repeat" => repeatTimes ((j.nth 2).toList.forM instruction) (j.nth 1).toInt.toNat
  | .string "ldc_series" =>
      let low := (j.nth 1).toInt
      (List.range ((j.nth 2).toInt - low).toNat).forM fun n =>
        emit (.instruction Opcode.ldc (.constant (.int (word (low + n)))))
  | _ => instruction j

def limit? (j : Json) : Option UInt16 := j.int?.map half

def wholeMethod (j : Json) : PartReader Unit := do
  method j
  (j.listAt "code").forM code
  (j.listAt "locals").forM localVariable
  (j.listAt "try").forM tryRange
  emit (.methodEnd ((j.given? "max_stack").bind limit?) ((j.given? "max_locals").bind limit?))

def wholeClass (j : Json) : PartReader Unit := do
  emit (.header (.ofJson j))
  (j.listAt "fields").forM fun f => emit (.field (.ofJson f))
  (j.listAt "methods").forM wholeMethod
  emit .classEnd

def part (j : Json) : PartReader Unit :=
  match (j.nth 0).toText with
  | "class" => emit (.header (.ofJson (j.nth 1)))
  | "field" => emit (.field (.ofJson (j.nth 1)))
  | "method" => method (j.nth 1)
  | "insn" => instruction (j.nth 1)
  | "try" => tryRange (j.nth 1)
  | "local" => localVariable (j.nth 1)
  | "method_end" => emit (.methodEnd (limit? (j.nth 1)) (limit? (j.nth 2)))
  | "class_end" => emit .classEnd
  | _ => pure ()

def events (reader : PartReader Unit) : List ClassEvent := (reader.run {}).2.reversed.reverse

end PartReader

def classEvents (j : Json) : List ClassEvent := (PartReader.wholeClass j).events

def partEvents (parts : List Json) : List ClassEvent := (parts.forM PartReader.part : PartReader Unit).events

-- Parts as JSON onto those before. Labels are numbered through the class: those of the current
-- method start at `base`, and `made` labels were made so far.
def eventsOnto (reversed : List Json) (base made : Nat) : List ClassEvent → List Json
  | [] => reversed.reverse
  | event :: rest =>
      let label := fun (l : LabelId) => Json.string s!"L{base + l.val}"
      let limit := Json.ofOption fun (n : UInt16) => .ofNat n.toNat
      let row := fun (kind : String) (parts : List Json) =>
        Json.array (.string kind :: parts) :: reversed
      match event with
      | .newLabel => eventsOnto reversed base (made + 1) rest
      | .header h => eventsOnto (row "class" [h.toJson]) base made rest
      | .field d => eventsOnto (row "field" [d.toJson]) base made rest
      | .method d => eventsOnto (row "method" [d.toJson]) made made rest
      | .instruction op operand =>
          eventsOnto (row "insn" [operand.toJson label op]) base made rest
      | .tryRange t => eventsOnto (row "try" [t.toJson label]) base made rest
      | .localVariable v => eventsOnto (row "local" [v.toJson label]) base made rest
      | .methodEnd stack locals =>
          eventsOnto (row "method_end" [limit stack, limit locals]) base made rest
      | .classEnd => eventsOnto (row "class_end" []) base made rest

def events (es : List ClassEvent) : Json := .array (eventsOnto [] 0 0 es)

end Describe

end JvmEdit
