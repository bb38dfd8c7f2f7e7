import JvmEdit.Load.Event
import JvmEdit.Program.Basic
import JvmEdit.Warning
set_option autoImplicit false

namespace JvmEdit

namespace LocalVariable

def slotOf? (opcode : Opcode) : Operand → Option UInt16
  | .var slot => if opcode = Opcode.ret then none else some slot
  | .increment slot _ => some slot
  | .simple =>
      if Opcode.iload0 ≤ opcode ∧ opcode ≤ Opcode.aload3 then
        some ((opcode - Opcode.iload0) % 4).toUInt16
      else if Opcode.istore0 ≤ opcode ∧ opcode ≤ Opcode.astore3 then
        some ((opcode - Opcode.istore0) % 4).toUInt16
      else none
  | _ => none

-- The instructions from the first marker of the start label up to the first marker of the end
-- label; none when either marker is missing.
def scope (code : Stream) (start stop : LabelId) : List Instruction :=
  match code.labelPosition? start, code.labelPosition? stop with
  | some first, some last => (code.toList.take last).drop first
  | _, _ => []

def collect (code : Stream) (v : LocalVariable) : LocalVariable :=
  let touching := (scope code v.start v.stop).filter fun i =>
    slotOf? i.opcode i.operand = some v.slot
  { v with references := .ofList (touching.map (·.id)) }

end LocalVariable

-- What has been seen of an open method's body, each list with its newest element in front.
structure PendingBody where
  code : List Instruction := []
  tryRanges : List TryRange := []
  locals : List LocalVariable := []
  deriving Repr, Inhabited

structure Builder where
  program : Program
  openClass : Option ClassId := none
  openMethod : Option MethodId := none
  body : PendingBody := {}
  labels : Array LabelId := #[]
  created : List ClassId := []
  -- Newest first.
  warnings : List Warning := []
  deriving Inhabited

namespace Builder

def new (program : Program) : Builder := { program }

def warn (b : Builder) (w : Warning) : Builder := { b with warnings := w :: b.warnings }

def label (b : Builder) (number : LabelId) : LabelId := b.labels.getD number.val ⟨0⟩

def flush (b : Builder) : Builder :=
  match b.openMethod with
  | none => b
  | some id =>
      let code : Stream := ⟨b.body.code.reverse⟩
      let finish (m : Method) : Method := { m with
        code
        tryRanges := b.body.tryRanges.reverse
        locals := b.body.locals.reverse.map (LocalVariable.collect code) }
      { b with program := b.program.updateMethod id finish, openMethod := none, body := {} }

-- Enters a class unless its name is taken; an identity is used up in either case.
def enterClass (b : Builder) (h : ClassHeader) : Builder :=
  let id : ClassId := ⟨b.program.nextId⟩
  let p := b.program.advance 1
  match p.index.claimClass? h.name id with
  | none => { b with program := p, openClass := none }.warn (.duplicateClass h.name)
  | some index =>
      let entity : Class := {
        name := h.name, superName := h.superName, interfaces := h.interfaces
        signature := h.signature, access := h.access, version := h.version
        bootstrapMethods := h.bootstrapMethods, annotations := h.annotations }
      { b with
        program := { p with index, classes := p.classes.insert id entity }
        openClass := some id
        created := id :: b.created }

def enterField (b : Builder) (d : FieldDecl) : Builder :=
  match b.openClass with
  | none => b
  | some owner =>
      let id : FieldId := ⟨b.program.nextId⟩
      let p := b.program.advance 1
      let entity : Field := {
        owner, name := d.name, descriptor := d.descriptor, signature := d.signature
        access := d.access, value := d.value, annotations := d.annotations }
      match p.attachField owner id entity with
      | .ok p => { b with program := p }
      | .error e => { b with program := p }.warn (.fieldSkipped e)

def enterMethod (b : Builder) (d : MethodDecl) : Builder :=
  match b.openClass with
  | none => b
  | some owner =>
      let id : MethodId := ⟨b.program.nextId⟩
      let p := b.program.advance 1
      let entity : Method := {
        owner, name := d.name, descriptor := d.descriptor, signature := d.signature
        access := d.access, kind := .ofName d.name, exceptions := d.exceptions
        annotations := d.annotations }
      match p.attachMethod owner id entity with
      | .ok p => { b with program := p, openMethod := some id }
      | .error e => { b with program := p }.warn (.methodSkipped e)

def addInstruction (b : Builder) (opcode : Opcode) (operand : Operand) : Builder :=
  if b.openMethod.isNone then b
  else
    let insn : Instruction := ⟨⟨b.program.nextId⟩, opcode, operand.mapLabels b.label⟩
    { b with program := b.program.advance 1, body := { b.body with code := insn :: b.body.code } }

def addTryRange (b : Builder) (d : TryDecl) : Builder :=
  if b.openMethod.isNone then b
  else
    let range : TryRange := ⟨b.label d.start, b.label d.stop, b.label d.handler, d.catchType⟩
    { b with body := { b.body with tryRanges := range :: b.body.tryRanges } }

def addLocal (b : Builder) (d : LocalDecl) : Builder :=
  if b.openMethod.isNone then b
  else
    let v : LocalVariable := {
      name := d.name, descriptor := d.descriptor, signature := d.signature
      start := b.label d.start, stop := b.label d.stop, slot := d.slot }
    { b with body := { b.body with locals := v :: b.body.locals } }

def endMethod (b : Builder) (maxStack maxLocals : Option UInt16) : Builder :=
  match b.openMethod with
  | none => b
  | some id =>
      { b with program := b.program.updateMethod id fun m => { m with maxStack, maxLocals } }.flush

-- A label costs two identities: its own and that of a marker.
def newLabel (b : Builder) : Builder :=
  { b with program := b.program.advance 2, labels := b.labels.push ⟨b.program.nextId⟩ }

def step (b : Builder) : ClassEvent → Builder
  | .header h => b.flush.enterClass h
  | .field d => b.enterField d
  | .method d => { b.flush with labels := #[] }.enterMethod d
  | .newLabel => b.newLabel
  | .instruction opcode operand => b.addInstruction opcode operand
  | .tryRange d => b.addTryRange d
  | .localVariable d => b.addLocal d
  | .methodEnd maxStack maxLocals => b.endMethod maxStack maxLocals
  | .classEnd => { b.flush with openClass := none }

def run (b : Builder) (events : List ClassEvent) : Builder := events.foldl step b

end Builder

structure Loaded where
  program : Program
  created : List ClassId
  deriving Inhabited

namespace Program

def load (p : Program) (events : List ClassEvent) : Logged Loaded :=
  let b := (Builder.new p).run events
  { value := { program := b.program, created := b.created.reverse }
    warnings := b.warnings.reverse }

end Program

end JvmEdit
