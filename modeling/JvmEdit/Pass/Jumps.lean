import JvmEdit.Pass.Work
set_option autoImplicit false

namespace JvmEdit

namespace Jumps

def goto? (i : Instruction) : Option LabelId :=
  match i.operand with
  | .jump target => if i.opcode = Opcode.goto || i.opcode = Opcode.gotoW then some target else none
  | _ => none

-- Follows a chain for at most so many jumps; `none` when it comes back to itself.
def followChain (code : Stream) (seen : List LabelId) (label : LabelId) : Nat → Option LabelId
  | 0 => none
  | fuel + 1 =>
      match (code.realAtLabel? label).bind goto? with
      | none => some label
      | some target =>
          if seen.contains target then none else followChain code (target :: seen) target fuel

-- The last label of the chain that starts at a label; a chain without an end is left alone. Each
-- jump of a chain is a different one, so there are no more of them than instructions.
def chainEnd (code : Stream) (label : LabelId) : LabelId :=
  (followChain code [label] label (code.size + 1)).getD label

structure Plan where
  -- The labels that are jumped to and that start a chain, with its end.
  ends : Table LabelId LabelId := .empty
  -- The labels at which unconditional jumps arrive and a return stands.
  exits : Table LabelId Opcode := .empty
  deriving DecidableEq, Repr, Inhabited

namespace Plan

def finish (p : Plan) (label : LabelId) : LabelId := (p.ends.get? label).getD label

def exit? (p : Plan) (i : Instruction) : Option Opcode :=
  (goto? i).bind fun target => p.exits.get? (p.finish target)

end Plan

-- The labels that any instruction can go to, once each.
def allTargets (code : Stream) : List LabelId :=
  (code.toList.foldl (fun found i => i.targets.foldl (fun t label => t.insert label ()) found)
    (Table.empty : Table LabelId Unit)).keys

def endsOf (code : Stream) : Table LabelId LabelId :=
  (allTargets code).foldl (fun t label =>
    let last := chainEnd code label
    if last = label then t else t.insert label last) .empty

def exitsOf (code : Stream) (labels : List LabelId) : Table LabelId Opcode :=
  labels.foldl (fun t label =>
    match code.realAtLabel? label with
    | some i => if i.opcode.isReturn then t.insert label i.opcode else t
    | none => t) .empty

def plan (code : Stream) : Plan :=
  let ends := endsOf code
  let arrivals := (allTargets code).map fun label => (ends.get? label).getD label
  { ends, exits := exitsOf code arrivals }

def isPlanned (p : Plan) (code : Stream) : Bool :=
  p.ends.size ≠ 0 || code.toList.any fun i => (p.exit? i).isSome

def isShortened (p : Plan) (i : Instruction) : Bool := i.targets.any p.ends.contains

-- Carries out a plan on a body. Returns get new identities from `next` on, in order.
def apply (p : Plan) (next : Nat) : List Instruction → List Instruction
  | [] => []
  | i :: rest =>
      match p.exit? i with
      | some opcode => ⟨⟨next⟩, opcode, .simple⟩ :: apply p (next + 1) rest
      | none =>
          (if isShortened p i then { i with operand := i.operand.mapLabels p.finish } else i) ::
            apply p next rest

def visit [Libraries] (id : MethodId) : Work Unit := do
  let context ← get
  match context.program.method? id with
  | none => return
  | some m =>
      let p := plan m.code
      if isPlanned p m.code then
        let returns := (m.code.toList.filter fun i => (p.exit? i).isSome).length
        let shortened :=
          (m.code.toList.filter fun i => (p.exit? i).isNone && isShortened p i).length
        let next := context.program.nextId
        Work.edit fun c => do
          let edited ← (c.program.advance returns).editBody id fun m =>
            { m with code := ⟨apply p next m.code.toList⟩ }
          return c.accept edited
        Work.record (context.methodTarget? id) s!"rewrote {returns + shortened} jumps"

end Jumps

end JvmEdit
