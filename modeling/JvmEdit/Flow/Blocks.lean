import JvmEdit.Flow.Analysis
set_option autoImplicit false

namespace JvmEdit

namespace Flow

-- The positions at which blocks start: the first one, those after an instruction that moves or
-- ends control, and those that jumps and protected ranges name.
def blockStarts (code : List Instruction) (labels : List (LabelId × Nat)) (ranges : List TryRange) :
    List Nat :=
  let named := fun (names : List LabelId) => names.filterMap fun name => labels.lookup name
  let byCode := (code.foldl (fun (starts, position) i =>
    let targets := i.targets
    if !targets.isEmpty then (named targets ++ (position + 1) :: starts, position + 1)
    else if i.opcode.isExit then ((position + 1) :: starts, position + 1)
    else (starts, position + 1)) ([0], 0)).1
  let byRange := ranges.flatMap fun range => named [range.start, range.stop, range.handler]
  byRange ++ byCode

def startFlags (size : Nat) (starts : List Nat) : Array Bool :=
  starts.foldl (fun flags position => flags.setIfInBounds position true)
    (Array.replicate size false)

def cut (code : List Instruction) (flags : List Bool) : List (List InsnId) :=
  let (front, blocks) := (code.zip flags).foldr (fun (i, starts) (front, blocks) =>
    if starts then ([], (i.id :: front) :: blocks) else (i.id :: front, blocks)) ([], [])
  if front.isEmpty then blocks else front :: blocks

def blockIndices (flags : List Bool) : Array Nat :=
  (flags.foldl (fun (indices, started) starts =>
    let started := if starts then started + 1 else started
    (indices.push (started - 1), started)) (#[], 0)).1

def quadLe (a b : Nat × Nat × Nat × Nat) : Bool :=
  a.1 < b.1 || (a.1 == b.1 && (a.2.1 < b.2.1 || (a.2.1 == b.2.1 &&
    (a.2.2.1 < b.2.2.1 || (a.2.2.1 == b.2.2.1 && a.2.2.2 ≤ b.2.2.2)))))

-- Keeps the first of neighbours that `same` puts together.
def keepFirst {α : Type} (same : α → α → Bool) (xs : List α) : List α :=
  (xs.foldl (fun kept x =>
    match kept with
    | [] => [x]
    | last :: _ => if same last x then kept else x :: kept) []).reverse

-- Exceptional transfers by blocks and source position, one for each pair of blocks: the one from
-- the earliest position.
def exceptionEdges (blockOf : Nat → Nat) (trace : List Transfer) : List (Nat × Nat × Nat) :=
  let all := trace.filterMap fun
    | .exception source handler => some (blockOf source, blockOf handler, 0, source)
    | .flow _ _ => none
  let kept := keepFirst (fun a b => a.1 == b.1 && a.2.1 == b.2.1) (all.mergeSort quadLe)
  kept.map fun (source, target, _, position) => (source, target, position)

-- Whether the instruction at `position` names `target` by a label.
def branches (code : Array Instruction) (labels : List (LabelId × Nat)) (position target : Nat) :
    Bool :=
  match code[position]? with
  | some i => i.targets.any fun label => labels.lookup label == some target
  | none => false

-- Transfers to the start of a block, without repetition.
def flowPairs (flags : Array Bool) (trace : List Transfer) : List (Nat × Nat) :=
  let all := trace.filterMap fun
    | .flow source target => if flags[target]? = some true then some (source, target, 0, 0) else none
    | .exception _ _ => none
  (keepFirst (· == ·) (all.mergeSort quadLe)).map fun (source, target, _) => (source, target)

def edgeLe (a b : FlowEdge) : Bool :=
  quadLe (a.source.val, a.target.val, a.kind.rank, a.cause.val)
    (b.source.val, b.target.val, b.kind.rank, b.cause.val)

def graph (code : List Instruction) (ranges : List TryRange) (trace : List Transfer) : Graph :=
  let labels := labelTable code
  let instructions := code.toArray
  let flags := startFlags instructions.size (blockStarts code labels ranges)
  let indices := blockIndices flags.toList
  let blockOf := fun position => indices.getD position 0
  let idAt := fun (position : Nat) => (instructions[position]?.map (·.id)).getD ⟨0⟩
  let blocks := (cut code flags.toList).mapIdx fun index instructions => ⟨⟨index⟩, instructions⟩
  let exceptional := (exceptionEdges blockOf trace).map fun (source, target, position) =>
    (⟨⟨source⟩, ⟨target⟩, .exception, idAt position⟩ : FlowEdge)
  let ordinary := (flowPairs flags trace).map fun (source, target) =>
    let kind := if branches instructions labels source target then .branch else .fallThrough
    (⟨⟨blockOf source⟩, ⟨blockOf target⟩, kind, idAt source⟩ : FlowEdge)
  ⟨blocks, (ordinary ++ exceptional).mergeSort edgeLe⟩

end Flow

namespace Method

def buildGraph [Libraries] (m : Method) : Graph × Option FlowError :=
  if m.code.isEmpty then ({}, none)
  else
    let analysis := m.analyse
    let fault := match analysis.result with
      | .error e => some e
      | .ok _ => none
    (Flow.graph m.code.toList m.tryRanges analysis.trace, fault)

end Method

end JvmEdit
