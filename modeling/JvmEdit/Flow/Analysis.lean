import JvmEdit.Descriptor.Slots
import JvmEdit.Entity
set_option autoImplicit false

namespace JvmEdit

namespace Flow

-- Slots popped and pushed by an instruction; the text of a descriptor that does not read.
def effect [Libraries] (opcode : Opcode) : Operand → Except String (Nat × Nat)
  | .label _ => .ok (0, 0)
  | .constant value => .ok (0, value.slots)
  | .field use =>
      let slots := Descriptor.fieldSlots use.descriptor
      .ok (if opcode = Opcode.getStatic then (0, slots)
        else if opcode = Opcode.putStatic then (slots, 0)
        else if opcode = Opcode.getField then (1, slots)
        else (1 + slots, 0))
  | .call call =>
      match Descriptor.methodSlots? call.descriptor with
      | some (arguments, result) =>
          .ok (arguments + (if call.kind = .static then 0 else 1), result)
      | none => .error call.descriptor
  | .dynamicCall call =>
      match Descriptor.methodSlots? call.descriptor with
      | some slots => .ok slots
      | none => .error call.descriptor
  | .multiArray _ dimensions => .ok (dimensions.toNat, 1)
  | _ => .ok (opcode.stackEffect.getD (0, 0))

-- The positions of the labels, later ones in front.
def labelTable (code : List Instruction) : List (LabelId × Nat) :=
  (code.foldl (fun (table, position) i =>
    match i.label? with
    | some label => ((label, position) :: table, position + 1)
    | none => (table, position + 1)) ([], 0)).1

-- A protected range by positions.
structure Handler where
  start : Nat
  stop : Nat
  entry : Nat
  deriving DecidableEq, Repr, Inhabited

namespace Handler

def covers (h : Handler) (position : Nat) : Bool := h.start ≤ position && position < h.stop

end Handler

-- What is analysed: the code, its labels by position (the last marker of a label counts), its
-- protected ranges, and the greatest height allowed after an instruction.
structure Body where
  code : Array Instruction
  labels : List (LabelId × Nat)
  handlers : List Handler
  limit : Option Nat
  deriving Repr, Inhabited

namespace Body

def size (b : Body) : Nat := b.code.size

def position? (b : Body) (label : LabelId) : Option Nat := b.labels.lookup label

def position (b : Body) (source : Nat) (label : LabelId) : Except FlowError Nat :=
  match b.position? label with
  | some position => .ok position
  | none => .error (.unknownLabel source)

def next (b : Body) (position : Nat) : Except FlowError Nat :=
  if position + 1 < b.size then .ok (position + 1) else .error (.fallOffEnd position)

-- The height after the instruction at `position`, when its stack stays within bounds.
def heightAfter [Libraries] (b : Body) (position height : Nat) (i : Instruction) :
    Except FlowError Nat :=
  match effect i.opcode i.operand with
  | .error text => .error (.descriptor position text)
  | .ok (pops, pushes) =>
      if height < pops then .error (.underflow position)
      else
        let after := height - pops + pushes
        match b.limit with
        | some limit => if limit < after then .error (.overflow position after limit) else .ok after
        | none => .ok after

-- Keeps the first of equal elements.
def distinct (positions : List Nat) : List Nat :=
  positions.foldl (fun seen p => if seen.contains p then seen else seen ++ [p]) []

-- Where control goes from an instruction and the height it arrives with, `height` being the
-- height before it and `after` the height after it. A subroutine call comes back with the height
-- it was made with.
def successors (b : Body) (position height after : Nat) (i : Instruction) :
    Except FlowError (List (Nat × Nat)) :=
  match i.operand with
  | .jump label => do
      if i.opcode.isSubroutineCall then
        let target ← b.position position label
        let next ← b.next position
        return [(target, after), (next, height)]
      else if i.opcode.isUnconditionalBranch then
        let target ← b.position position label
        return [(target, after)]
      else
        let target ← b.position position label
        let next ← b.next position
        return [(next, after), (target, after)]
  | .switch otherwise cases => do
      let targets ← (otherwise :: cases.map Prod.snd).mapM (b.position position)
      return (distinct targets).map fun target => (target, after)
  | _ =>
      if i.opcode.isExit then .ok []
      else do
        let next ← b.next position
        return [(next, after)]

-- The entries of the handlers that cover a position.
def handlerEntries (b : Body) (position : Nat) : List Nat :=
  (b.handlers.filter (·.covers position)).map (·.entry)

end Body

inductive Transfer
  | flow (source target : Nat)
  | exception (source handler : Nat)
  deriving DecidableEq, Repr, Inhabited

namespace Transfer

def target : Transfer → Nat
  | flow _ target => target
  | exception _ handler => handler

end Transfer

structure Move where
  transfer : Transfer
  height : Nat
  deriving DecidableEq, Repr, Inhabited

-- All moves from an instruction in the order they are followed, and the fault that comes up after
-- them. A handler is entered with the exception alone on the stack.
def Body.moves [Libraries] (b : Body) (position height : Nat) (i : Instruction) :
    List Move × Option FlowError :=
  let exceptional := (b.handlerEntries position).map fun entry => ⟨.exception position entry, 1⟩
  let ordinary := do
    let after ← b.heightAfter position height i
    let successors ← b.successors position height after i
    return successors.map fun (target, height) => (⟨.flow position target, height⟩ : Move)
  match ordinary with
  | .ok moves => (exceptional ++ moves, none)
  | .error e => (exceptional, some e)

-- Height before each instruction; `none` where control never comes.
structure Frames where
  heights : Array (Option Nat)
  deriving DecidableEq, Repr, Inhabited

namespace Frames

def height? (f : Frames) (position : Nat) : Option Nat := (f.heights[position]?).join

def isReachable (f : Frames) (position : Nat) : Bool := (f.height? position).isSome

def size (f : Frames) : Nat := f.heights.size

def isEmpty (f : Frames) : Bool := f.heights.isEmpty

def maxHeight (f : Frames) : Nat := f.heights.foldl (fun m h => max m (h.getD 0)) 0

def reachableCount (f : Frames) : Nat :=
  f.heights.foldl (fun n h => if h.isSome then n + 1 else n) 0

end Frames

-- A walk under way: heights found, positions still to be visited, and the transfers followed so
-- far, newest first.
structure Walk where
  heights : Array (Option Nat)
  pending : List Nat
  trace : List Transfer
  deriving Repr, Inhabited

namespace Walk

-- Lets a height arrive at a position: the first one settles it.
def arrive (w : Walk) (position height : Nat) : Walk × Option FlowError :=
  match w.heights[position]? with
  | some none =>
      ({ w with
          heights := w.heights.setIfInBounds position (some height)
          pending := position :: w.pending }, none)
  | some (some settled) =>
      if settled = height then (w, none) else (w, some (.inconsistent position settled height))
  | none => (w, none)

def follow (w : Walk) : List Move → Walk × Option FlowError
  | [] => (w, none)
  | move :: moves =>
      match { w with trace := move.transfer :: w.trace }.arrive move.transfer.target move.height with
      | (w', none) => w'.follow moves
      | (w', some e) => (w', some e)

-- Visits one position that has a height.
def visit [Libraries] (b : Body) (w : Walk) (position : Nat) : Walk × Option FlowError :=
  match (w.heights[position]?).join, b.code[position]? with
  | some height, some i =>
      let (moves, fault) := b.moves position height i
      match w.follow moves with
      | (w', some e) => (w', some e)
      | (w', none) => (w', fault)
  | _, _ => (w, none)

-- Visits pending positions, the newest first. Every position is pending at most once, so as many
-- visits as there are positions finish the walk.
def run [Libraries] (b : Body) : Nat → Walk → Walk × Option FlowError
  | 0, w => (w, none)
  | visits + 1, w =>
      match w.pending with
      | [] => (w, none)
      | position :: pending =>
          match visit b { w with pending } position with
          | (w', none) => run b visits w'
          | (w', some e) => (w', some e)

end Walk

structure Analysis where
  trace : List Transfer
  result : Except FlowError Frames
  deriving Inhabited

def Body.start (b : Body) : Walk :=
  ⟨(Array.replicate b.size none).setIfInBounds 0 (some 0), [0], []⟩

def Body.analyse [Libraries] (b : Body) : Analysis :=
  let (w, fault) := Walk.run b b.size b.start
  ⟨w.trace.reverse, match fault with
    | some e => .error e
    | none => .ok ⟨w.heights⟩⟩

-- The protected ranges by positions; all their labels have to stand in the code.
def handlers (labels : List (LabelId × Nat)) (ranges : List TryRange) :
    Except FlowError (List Handler) :=
  ranges.mapM fun range =>
    match labels.lookup range.start, labels.lookup range.stop, labels.lookup range.handler with
    | some start, some stop, some entry => .ok ⟨start, stop, entry⟩
    | _, _, _ => .error (.unknownLabel 0)

-- Analyses code with its protected ranges. Empty code has no faults.
def analyse [Libraries] (code : Stream) (ranges : List TryRange) (limit : Option UInt16) : Analysis :=
  if code.isEmpty then ⟨[], .ok ⟨#[]⟩⟩
  else
    let labels := labelTable code.toList
    match handlers labels ranges with
    | .error e => ⟨[], .error e⟩
    | .ok handlers =>
        Body.analyse ⟨code.toList.toArray, labels, handlers, limit.map UInt16.toNat⟩

end Flow

namespace Method

def analyse [Libraries] (m : Method) : Flow.Analysis := Flow.analyse m.code m.tryRanges m.maxStack

end Method

end JvmEdit
