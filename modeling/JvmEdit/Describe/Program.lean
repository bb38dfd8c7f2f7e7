import Std.Data.HashMap
import JvmEdit.Describe.Code
import JvmEdit.Flow.Analysis
import JvmEdit.Pass.Node
import JvmEdit.Program.Resolve
set_option autoImplicit false

namespace JvmEdit

namespace Describe

-- Where each instruction of a body stands.
abbrev Positions := Std.HashMap Nat Nat

def positions (code : Stream) : Positions :=
  code.toList.zipIdx.foldl (fun m (i, n) => m.insert i.id.val n) {}

-- A program, and where each instruction of its methods stands.
structure View where
  program : Program
  positions : Std.HashMap Nat Positions

def view (p : Program) : View :=
  ⟨p, p.methods.toList.foldl (fun m (id, method) => m.insert id.val (positions method.code)) {}⟩

def className (p : Program) (id : ClassId) : Json := .ofText? (p.className? id)

def fieldName (p : Program) (id : FieldId) : Json := .ofText? (p.fieldKey? id)

def methodName (p : Program) (id : MethodId) : Json := .ofText? (p.methodKey? id)

def target (p : Program) : Target → Json
  | .class id => .object [("class", className p id)]
  | .field id => .object [("field", fieldName p id)]
  | .method id => .object [("method", methodName p id)]

def position (m : Positions) (id : InsnId) : Json := .ofOption .ofNat (m.get? id.val)

def reference (v : View) (ref : InsnRef) : Json :=
  .array [methodName v.program ref.method,
    position ((v.positions.get? ref.method.val).getD {}) ref.insn]

def references (v : View) (refs : OrderedSet InsnRef) : Json :=
  .array (refs.toList.map (reference v))

def instructionAt (p : Program) (ref : InsnRef) : Json :=
  .array [methodName p ref.method,
    .ofOption .ofNat ((p.method? ref.method).bind fun m => m.code.position? ref.insn)]

-- Labels in the order of their first markers.
def labelNumbers (code : Stream) : Std.HashMap Nat Nat :=
  code.toList.foldl (fun m i =>
    match i.label? with
    | some l => if m.contains l.val then m else m.insert l.val m.size
    | none => m) {}

def label (numbers : Std.HashMap Nat Nat) (l : LabelId) : Json :=
  match numbers.get? l.val with
  | some n => .string s!"L{n}"
  | none => .string "L?"

def code (m : Method) : Json :=
  let label := label (labelNumbers m.code)
  .array (m.code.toList.map fun i => i.operand.toJson label i.opcode)

def graph (m : Method) : Json :=
  let position := position (positions m.code)
  .object [("blocks", .array (m.graph.blocks.map fun b =>
      .array [.string (toString b.id), .ofOption position b.first?, .ofOption position b.last?,
        .ofNat b.size])),
    ("edges", .array (m.graph.edges.map fun e =>
      .array [.ofNat e.source.val, .ofNat e.target.val, .string e.kind.name, position e.cause]))]

def flowError (e : FlowError) : Json :=
  let kind := match e with
    | .underflow _ => "StackUnderflow"
    | .inconsistent _ _ _ => "InconsistentStack"
    | .overflow _ _ _ => "StackOverflow"
    | .fallOffEnd _ => "FallOffEnd"
    | .unknownLabel _ => "UnknownLabel"
    | .descriptor _ _ => "Descriptor"
  .object [("error", .string kind), ("message", .string e.message)]

def annotations (list : List Annotation) : Json := .array (list.map Annotation.toJson)

def localVariable (m : Positions) (label : LabelId → Json) (v : LocalVariable) : Json :=
  .object [("name", .string v.name), ("desc", .string v.descriptor),
    ("signature", .ofText? v.signature), ("start", label v.start), ("end", label v.stop),
    ("index", .ofNat v.slot.toNat), ("refs", .array (v.references.toList.map (position m)))]

def method (v : View) (m : Method) : Json :=
  let label := label (labelNumbers m.code)
  let limit := Json.ofOption fun (n : UInt16) => .ofNat n.toNat
  .object [("name", .string m.name), ("desc", .string m.descriptor),
    ("signature", .ofText? m.signature), ("access", .ofNat m.access.bits.toNat),
    ("kind", .string m.kind.name), ("exceptions", .ofTexts m.exceptions),
    ("max_stack", limit m.maxStack), ("max_locals", limit m.maxLocals), ("code", code m),
    ("try", .array (m.tryRanges.map fun t =>
      .array [label t.start, label t.stop, label t.handler, .ofText? t.catchType])),
    ("locals", .array (m.locals.map (localVariable (positions m.code) label))),
    ("invocations", references v m.invocations), ("cfg", graph m),
    ("cfg_error", .ofOption flowError m.flowError), ("annotations", annotations m.annotations)]

def field (v : View) (f : Field) : Json :=
  .object [("name", .string f.name), ("desc", .string f.descriptor),
    ("signature", .ofText? f.signature), ("access", .ofNat f.access.bits.toNat),
    ("value", .ofOption Constant.toJson f.value), ("refs", references v f.references),
    ("annotations", annotations f.annotations)]

def classNames (p : Program) (ids : List ClassId) : Json := .array (ids.map (className p))

def classEntity (v : View) (c : Class) : Json :=
  let p := v.program
  .object [("name", .string c.name), ("super", .ofText? c.superName),
    ("interfaces", .ofTexts c.interfaces), ("signature", .ofText? c.signature),
    ("access", .ofNat c.access.bits.toNat), ("version", .ofNat c.version.toNat),
    ("fields", .array (c.fields.map fun id => .ofOption (field v) (p.field? id))),
    ("methods", .array (c.methods.map fun id => .ofOption (method v) (p.method? id))),
    ("sub", classNames p c.subclasses.toList),
    ("implemented_by", classNames p c.implementers.toList),
    ("type_refs", references v c.typeReferences),
    ("bootstrap", .array (c.bootstrapMethods.map BootstrapMethod.toJson)),
    ("annotations", annotations c.annotations)]

def outline (v : View) (c : Class) : Json :=
  let p := v.program
  let field := fun (f : Field) =>
    Json.array [.string f.name, .string f.descriptor, .ofOption Constant.toJson f.value,
      references v f.references]
  let method := fun (m : Method) =>
    Json.array [.string m.name, .string m.descriptor, code m, references v m.invocations, graph m]
  .array [.string c.name, .ofText? c.superName, classNames p c.subclasses.toList,
    classNames p c.implementers.toList, references v c.typeReferences,
    .array (c.fields.map fun id => .ofOption field (p.field? id)),
    .array (c.methods.map fun id => .ofOption method (p.method? id))]

def program (p : Program) : Json := .array (p.classes.values.map (classEntity (view p)))

def outlines (p : Program) : Json := .array (p.classes.values.map (outline (view p)))

def entity (p : Program) : Target → Json
  | .class id => .ofOption (classEntity (view p)) (p.class? id)
  | .field id => .ofOption (field (view p)) (p.field? id)
  | .method id => .ofOption (method (view p)) (p.method? id)

def owner (p : Program) : Owner → Json
  | .class id => .object [("class", className p id)]
  | .field id => .object [("field", fieldName p id)]
  | .method id => .object [("method", methodName p id)]

def node (p : Program) (n : Node) : Json :=
  let row := fun (kind : NodeKind) (parts : List Json) => Json.array (.string kind.name :: parts)
  match n with
  | .class id => row .class [className p id]
  | .method id => row .method [methodName p id]
  | .constructor id => row .constructor [methodName p id]
  | .field id => row .field [fieldName p id]
  | .fieldRead ref => row .fieldRead [instructionAt p ref]
  | .fieldWrite ref => row .fieldWrite [instructionAt p ref]
  | .methodReference ref => row .methodReference [instructionAt p ref]
  | .annotationItem o index => row .annotationItem [owner p o, .ofNat index]
  | .block id index => row .block [methodName p id, .ofNat index]

def query (m : Method) : Json :=
  let position := position (positions m.code)
  let g := m.graph
  let block := Json.ofOption fun (b : Block) => .ofNat b.id.val
  let uses := fun (rows : List (InsnId × String)) =>
    Json.array (rows.map fun (id, key) => .array [position id, .string key])
  let places := fun (rows : List (InsnId × FieldUse)) =>
    Json.array (rows.map fun (id, _) => position id)
  let describe := fun (b : Block) =>
    (toString b.id, Json.object [
      ("succ", .array ((g.successors b.id).map fun e => .ofNat e.target.val)),
      ("pred", .array ((g.predecessors b.id).map fun e => .ofNat e.source.val)),
      ("self", .array ([EdgeKind.fallThrough, .branch, .exception].map fun kind =>
        .bool (g.hasEdge b.id b.id kind))),
      ("same", .bool (g.block? b.id = some b)), ("empty", .bool b.instructions.isEmpty)])
  .object [
    ("fields", uses (m.fieldUses.map fun (id, use) => (id, use.key))),
    ("reads", places m.fieldReads), ("writes", places m.fieldWrites),
    ("calls", uses (m.calls.map fun (id, call) => (id, call.key))), ("types", uses m.typeUses),
    ("insns", .array (m.code.toList.map fun i =>
      .array [block (g.blockStartingWith? i.id), block (g.blockEndingWith? i.id),
        block (g.blockContaining? i.id)])),
    ("blocks", .object (g.blocks.map describe)),
    ("try", .array (m.tryRanges.map fun t =>
      .array [block (m.tryBlock? t), block (m.catchBlock? t)])),
    ("exceptions", .ofNat g.exceptionEdges.length), ("cfg_empty", .bool g.isEmpty),
    ("constructor", .bool m.isConstructor)]

def transfer : Flow.Transfer → Json
  | .flow source target => .array [.string "flow", .ofNat source, .ofNat target]
  | .exception source handler => .array [.string "exception", .ofNat source, .ofNat handler]

def analysis (a : Flow.Analysis) : Json :=
  let result := match a.result with
    | .error e => flowError e
    | .ok f => .object [("heights", .array (f.heights.toList.map (Json.ofOption .ofNat))),
        ("max", .ofNat f.maxHeight), ("reachable", .ofNat f.reachableCount),
        ("empty", .bool f.isEmpty), ("past_end", .bool (f.isReachable f.size))]
  .object [("result", result), ("edges", .array (a.trace.map transfer))]

end Describe

end JvmEdit
