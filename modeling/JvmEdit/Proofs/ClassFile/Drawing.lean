import JvmEdit.Proofs.ClassFile.Offsets
set_option autoImplicit false

namespace JvmEdit

namespace Code

structure DrawnBody where
  instructions : List (Opcode × Operand)
  ranges : List TryDecl
  locals : List LocalDecl

-- The body under other names for its labels.
def Body.named (names : LabelId → LabelId) (body : Body) : DrawnBody where
  instructions := body.instructions.map fun i => (i.1, i.2.mapLabels names)
  ranges := body.ranges.map fun r => ⟨names r.start, names r.stop, names r.handler, r.catchType⟩
  locals := body.locals.map fun v =>
    ⟨v.name, v.descriptor, v.signature, names v.start, names v.stop, v.slot⟩

section Search

-- The label of each offset that has one.
variable (table : List (Nat × LabelId))

def seek (source target : Nat) : Except DecodeError LabelId :=
  match table.lookup target with
  | some label => .ok label
  | none => .error (.badTarget source (-1))

def seekOperand (source : Nat) : RawOperand → Except DecodeError Operand
  | .ready operand => .ok operand
  | .jump target => Operand.jump <$> seek table source target
  | .switch otherwise cases => do
      let otherwise ← seek table source otherwise
      let cases ← cases.mapM fun c => do
        let label ← seek table source c.2
        return (c.1, label)
      return .switch otherwise cases

def markerAt (o : Nat) : List (Opcode × Operand) :=
  (table.lookup o).toList.map fun label => (Opcode.label, .label label)

def seekInstruction (i : RawInstruction) : Except DecodeError (List (Opcode × Operand)) := do
  let operand ← seekOperand table i.offset i.operand
  return markerAt table i.offset ++ [(i.opcode, operand)]

def seekRange (r : RawRange) : Except DecodeError TryDecl := do
  let start ← seek table r.start.toNat r.start.toNat
  let stop ← seek table r.start.toNat r.stop.toNat
  let handler ← seek table r.start.toNat r.handler.toNat
  return ⟨start, stop, handler, r.catchType⟩

def seekLocal (v : RawLocal) : Except DecodeError LocalDecl := do
  let start ← seek table v.start.toNat v.start.toNat
  let stop ← seek table v.start.toNat v.stop
  return ⟨v.name, v.descriptor, v.signature, start, stop, v.slot⟩

def seekBody (size : Nat) (is : List RawInstruction) (ranges : List RawRange) (locals : List RawLocal) :
    Except DecodeError DrawnBody := do
  let instructions ← is.mapM (seekInstruction table)
  let ranges ← ranges.mapM (seekRange table)
  let locals ← locals.mapM (seekLocal table)
  return ⟨instructions.flatten ++ markerAt table size, ranges, locals⟩

end Search

section Drawing

variable {σ : Type} (newLabel : σ → LabelId × σ)

-- So many labels, one after the other.
def draws : Nat → σ → List LabelId × σ
  | 0, s => ([], s)
  | n + 1, s =>
      let (label, s) := newLabel s
      let (labels, s) := draws n s
      (label :: labels, s)

theorem length_draws (n : Nat) (s : σ) : (draws newLabel n s).1.length = n := by
  induction n generalizing s with
  | zero => rfl
  | succ n ih => exact congrArg (· + 1) (ih (newLabel s).2)

def decodeDrawing (bytes : List UInt8) (pool : Pool) (ranges : List RawRange) (locals : List RawLocal)
    (s : σ) : Except DecodeError DrawnBody × σ :=
  match readInstructions pool bytes with
  | .error e => (.error e, s)
  | .ok is =>
      let boundaries := offsetFlags bytes.length (bytes.length :: is.map (·.offset))
      match ((mentions is ranges locals).mergeSort Mention.le).find? fun m =>
          boundaries[m.target]? ≠ some true with
      | some m => (.error (.badTarget m.source m.target), s)
      | none =>
          let offsets := risingAims bytes.length (aims is ranges locals)
          let (labels, s) := draws newLabel offsets.length s
          (seekBody (offsets.zip labels) bytes.length is ranges locals, s)

end Drawing

-- The name that was drawn for the label of that number.
def drawnName (labels : List LabelId) (label : LabelId) : LabelId := labels.getD label.val ⟨0⟩

theorem lookup_zip (offsets : List Nat) (labels : List LabelId) (whole : labels.length = offsets.length)
    (o : Nat) : (offsets.zip labels).lookup o =
      if o ∈ offsets then some (drawnName labels (nameIn offsets o)) else none := by
  induction offsets generalizing labels with
  | nil => rfl
  | cons first offsets ih =>
      cases labels with
      | nil => cases whole
      | cons label labels =>
          rw [List.zip_cons_cons, List.lookup_cons]
          by_cases here : o = first
          · subst here
            rw [beq_self_eq_true, if_pos List.mem_cons_self, nameIn, List.idxOf_cons_self]
            rfl
          · have later := ih labels (Nat.succ.inj whole)
            rw [beq_false_of_ne here]
            simp only [List.mem_cons, here, false_or]
            rw [later, nameIn, nameIn, drawnName, drawnName, List.idxOf_cons_ne _ (Ne.symm here)]
            rfl

theorem except_map_m_of_ok {α β ε : Type} (f : α → Except ε β) (g : α → β) (items : List α)
    (each : ∀ item ∈ items, f item = .ok (g item)) : items.mapM f = .ok (items.map g) := by
  induction items with
  | nil => rfl
  | cons item items ih =>
      obtain ⟨first, rest⟩ := List.forall_mem_cons.mp each
      rw [List.mapM_cons, first, ih rest]
      rfl

section Seeking

variable (table : List (Nat × LabelId)) (name : Nat → LabelId)

theorem seek_ok (source target : Nat) (found : table.lookup target = some (name target)) :
    seek table source target = .ok (name target) := by
  rw [seek, found]

theorem seek_operand_ok (source : Nat) (operand : RawOperand)
    (found : ∀ t ∈ operand.targets, table.lookup t = some (name t)) :
    seekOperand table source operand = .ok (operand.aimed name) := by
  cases operand with
  | ready operand => rfl
  | jump target =>
      rw [seekOperand, seek_ok table name source target (found target (List.mem_singleton_self _))]
      rfl
  | switch otherwise cases =>
      have each : ∀ c ∈ cases, (do
          let label ← seek table source c.2
          return (c.1, label) : Except DecodeError (Int32 × LabelId)) = .ok (c.1, name c.2) := by
        intro c member
        rw [seek_ok table name source c.2 (found c.2 (List.mem_cons_of_mem _ (List.mem_map_of_mem member)))]
        rfl
      rw [seekOperand, seek_ok table name source otherwise (found otherwise List.mem_cons_self),
        except_map_m_of_ok _ _ cases each]
      rfl

variable (is : List RawInstruction) (ranges : List RawRange) (locals : List RawLocal)

theorem seek_body_ok (size : Nat)
    (found : ∀ o ∈ aims is ranges locals, table.lookup o = some (name o)) :
    seekBody table size is ranges locals = .ok {
      instructions := (is.flatMap fun i => markerAt table i.offset ++ [(i.opcode, i.operand.aimed name)]) ++
        markerAt table size
      ranges := ranges.map fun r => ⟨name r.start.toNat, name r.stop.toNat, name r.handler.toNat, r.catchType⟩
      locals := locals.map fun v =>
        ⟨v.name, v.descriptor, v.signature, name v.start.toNat, name v.stop, v.slot⟩ } := by
  have instructions : is.mapM (seekInstruction table) =
      .ok (is.map fun i => markerAt table i.offset ++ [(i.opcode, i.operand.aimed name)]) := by
    refine except_map_m_of_ok _ _ is fun i member => ?_
    rw [seekInstruction, seek_operand_ok table name i.offset i.operand fun t isTarget => found t
      (List.mem_append_left _ (List.mem_append_left _ (List.mem_flatMap.mpr ⟨i, member, isTarget⟩)))]
    rfl
  have isRanges : ranges.mapM (seekRange table) = .ok (ranges.map fun r =>
      ⟨name r.start.toNat, name r.stop.toNat, name r.handler.toNat, r.catchType⟩) := by
    refine except_map_m_of_ok _ _ ranges fun r member => ?_
    have each : ∀ o ∈ [r.start.toNat, r.stop.toNat, r.handler.toNat], table.lookup o = some (name o) :=
      fun o inside => found o (List.mem_append_left _ (List.mem_append_right _
        (List.mem_flatMap.mpr ⟨r, member, inside⟩)))
    rw [seekRange, seek_ok table name _ _ (each r.start.toNat (by simp)),
      seek_ok table name _ _ (each r.stop.toNat (by simp)),
      seek_ok table name _ _ (each r.handler.toNat (by simp))]
    rfl
  have isLocals : locals.mapM (seekLocal table) = .ok (locals.map fun v =>
      ⟨v.name, v.descriptor, v.signature, name v.start.toNat, name v.stop, v.slot⟩) := by
    refine except_map_m_of_ok _ _ locals fun v member => ?_
    have each : ∀ o ∈ [v.start.toNat, v.stop], table.lookup o = some (name o) := fun o inside =>
      found o (List.mem_append_right _ (List.mem_flatMap.mpr ⟨v, member, inside⟩))
    rw [seekLocal, seek_ok table name _ _ (each v.start.toNat (by simp)),
      seek_ok table name _ _ (each v.stop (by simp))]
    rfl
  rw [seekBody, instructions, isRanges, isLocals, List.flatMap_def]
  rfl

end Seeking

theorem seek_body_named (bytes : List UInt8) (pool : Pool) (ranges : List RawRange) (locals : List RawLocal)
    (is : List RawInstruction) (read : readInstructions pool bytes = .ok is)
    (boundary : ∀ o ∈ aims is ranges locals, o ∈ starts is bytes.length) (labels : List LabelId)
    (whole : labels.length = (risingAims bytes.length (aims is ranges locals)).length) :
    seekBody ((risingAims bytes.length (aims is ranges locals)).zip labels) bytes.length is ranges locals =
      .ok ((bodyOf is ranges locals (LabelMap.of bytes.length (aims is ranges locals))
        (risingAims bytes.length (aims is ranges locals)).length bytes.length).named (drawnName labels)) := by
  have rising := (scans_of_read pool bytes is read).rising.1
  have bare := (scans_of_read pool bytes is read).bare
  let size := bytes.length
  let targets := aims is ranges locals
  let offsets := risingAims size targets
  let table := offsets.zip labels
  let name : Nat → LabelId := fun o => drawnName labels (nameIn offsets o)
  have found : ∀ o ∈ targets, table.lookup o = some (name o) := by
    intro o isAim
    rw [lookup_zip offsets labels whole, if_pos (mem_offsets ranges locals is size rising boundary o isAim)]
  have marker : ∀ o, ((LabelMap.of size targets).marker o).map
      (fun i => (i.1, i.2.mapLabels (drawnName labels))) = markerAt table o := by
    intro o
    rw [LabelMap.marker, get?_named, markerAt, lookup_zip offsets labels whole]
    by_cases member : o ∈ offsets
    · rw [if_pos member, if_pos member]
      rfl
    · rw [if_neg member, if_neg member]
      rfl
  have instructions : (labelled (LabelMap.of size targets) size is).map
      (fun i => (i.1, i.2.mapLabels (drawnName labels))) =
        (is.flatMap fun i => markerAt table i.offset ++ [(i.opcode, i.operand.aimed name)]) ++
          markerAt table size := by
    rw [labelled, List.map_append, marker, List.map_flatMap, List.flatMap_def, List.flatMap_def]
    refine congrArg (fun rows => List.flatten rows ++ markerAt table size)
      (List.map_congr_left fun i member => ?_)
    rw [List.map_append, marker, operand_named ranges locals is size rising boundary i member,
      List.map_singleton, RawOperand.map_labels_aimed _ name _ _ (bare i member) fun _ _ => rfl]
  rw [seek_body_ok table name is ranges locals size found]
  refine congrArg Except.ok ?_
  rw [Body.named, ranges_named ranges locals is size rising boundary,
    locals_named ranges locals is size rising boundary, List.map_map, List.map_map]
  exact congrArg (DrawnBody.mk · _ _) instructions.symm

theorem decode_drawing_eq {σ : Type} (newLabel : σ → LabelId × σ) (bytes : List UInt8) (pool : Pool)
    (ranges : List RawRange) (locals : List RawLocal) (s : σ) :
    decodeDrawing newLabel bytes pool ranges locals s = match decode bytes pool ranges locals with
      | .error e => (.error e, s)
      | .ok body =>
          let drawn := draws newLabel body.labelCount s
          (.ok (body.named (drawnName drawn.1)), drawn.2) := by
  cases read : readInstructions pool bytes with
  | error e => simp only [decodeDrawing, decode, read, bind, Except.bind]
  | ok is =>
      cases found : ((mentions is ranges locals).mergeSort Mention.le).find? fun m =>
          decide ((offsetFlags bytes.length (bytes.length :: is.map (·.offset)))[m.target]? ≠ some true) with
      | some m => simp only [decodeDrawing, decode, read, bind, Except.bind, found]
      | none =>
          rcases decode_of_read bytes pool ranges locals is read with ⟨boundary, done⟩ | ⟨m, _, _, error⟩
          · rw [done]
            simp only [decodeDrawing, read, found]
            rw [seek_body_named bytes pool ranges locals is read boundary _ (length_draws newLabel _ s)]
            rfl
          · simp only [decode, read, bind, Except.bind, found] at error
            cases error

-- A body that is read has its instructions in the order of their offsets, with one label directly in
-- front of the instruction at each offset that is referred to, named in rising order, and nothing in
-- it leads anywhere but to the label at the offset that was written; those are its instructions as
-- they are read without a look at their targets, none of which lies before the code. Labels are only
-- drawn for code that comes to a body. Code that can be read but for its targets is refused for one of
-- them just when one of its references, before the code or in it, is neither the start of an instruction nor
-- the end.
theorem decode_places_labels {σ : Type} (newLabel : σ → LabelId × σ) (bytes : List UInt8) (pool : Pool)
    (ranges : List RawRange) (locals : List RawLocal) (s : σ) :
    (∀ body, decode bytes pool ranges locals = .ok body → ∃ is offsets,
      Reflects pool bytes ranges locals is offsets body ∧
      (∃ free, freeInstructions pool bytes = .ok free ∧ (∀ aim ∈ listAims free, 0 ≤ aim.2) ∧
        free.map FreeInstruction.checked = is) ∧
      decodeDrawing newLabel bytes pool ranges locals s =
        (.ok (body.named (drawnName (draws newLabel offsets.length s).1)), (draws newLabel offsets.length s).2)) ∧
    (∀ e, decode bytes pool ranges locals = .error e →
      decodeDrawing newLabel bytes pool ranges locals s = (.error e, s)) ∧
    ∀ free, freeInstructions pool bytes = .ok free →
      ((∃ source target, decode bytes pool ranges locals = .error (.badTarget source target)) ↔
        ∃ place ∈ allAims free ranges locals, ¬IsBoundary free bytes.length place) ∧
      ((∃ body, decode bytes pool ranges locals = .ok body) ↔
        ∀ place ∈ allAims free ranges locals, IsBoundary free bytes.length place) := by
  refine ⟨?_, ?_, fun free read => bad_target_iff bytes pool ranges locals free read⟩
  · intro body decoded
    obtain ⟨is, offsets, read, reflects⟩ := reflects_of_decode bytes pool ranges locals body decoded
    refine ⟨is, offsets, reflects, free_of_read pool bytes is read, ?_⟩
    rw [decode_drawing_eq, decoded, ← reflects.count]
  · intro e decoded
    rw [decode_drawing_eq, decoded]

-- A jump over an instruction, a range that protects them, and a variable that lives to the end.
def hop : List UInt8 := [0x1a, 0x99, 0x00, 0x04, 0x00, 0xb1]

def hopListing : List RawInstruction :=
  [⟨0, 0x1a, .ready .simple⟩, ⟨1, 0x99, .jump 5⟩, ⟨4, 0x00, .ready .simple⟩, ⟨5, 0xb1, .ready .simple⟩]

def hopRanges : List RawRange := [⟨0, 4, 5, none⟩]

def hopLocals : List RawLocal := [⟨0, 6, "n", "I", none, 0⟩]

def hopBody : Body where
  labelCount := 4
  instructions := [(Opcode.label, .label ⟨0⟩), (0x1a, .simple), (0x99, .jump ⟨2⟩), (Opcode.label, .label ⟨1⟩),
    (0x00, .simple), (Opcode.label, .label ⟨2⟩), (0xb1, .simple), (Opcode.label, .label ⟨3⟩)]
  ranges := [⟨⟨0⟩, ⟨1⟩, ⟨2⟩, none⟩]
  locals := [⟨"n", "I", none, ⟨0⟩, ⟨3⟩, 0⟩]

theorem decode_hop : decode hop ⟨#[]⟩ hopRanges hopLocals = .ok hopBody := by
  have read : readInstructions ⟨#[]⟩ hop = .ok hopListing := by decide +kernel
  rcases decode_of_read hop ⟨#[]⟩ hopRanges hopLocals hopListing read with ⟨_, done⟩ | ⟨m, member, fault, _⟩
  · rw [done]
    decide +kernel
  · have fine : ∀ m ∈ mentions hopListing hopRanges hopLocals, m.target ∈ starts hopListing hop.length := by
      decide
    exact absurd (fine m member) fault

-- A jump to the byte before the code.
def astray : List UInt8 := [0xa7, 0xff, 0xff]

theorem decode_places_labels_hop :
    decode hop ⟨#[]⟩ hopRanges hopLocals = .ok hopBody ∧
    (∃ is offsets, Reflects ⟨#[]⟩ hop hopRanges hopLocals is offsets hopBody) ∧
    decodeDrawing (fun n => (⟨n⟩, n + 1)) hop ⟨#[]⟩ hopRanges hopLocals 10 =
      (.ok (hopBody.named (drawnName [⟨10⟩, ⟨11⟩, ⟨12⟩, ⟨13⟩])), 14) ∧
    freeInstructions ⟨#[]⟩ astray = .ok [⟨0, 0xa7, .jump (-1)⟩] ∧
    ∃ source target, decode astray ⟨#[]⟩ [] [] = .error (.badTarget source target) ∧
      decodeDrawing (fun n => (⟨n⟩, n + 1)) astray ⟨#[]⟩ [] [] 10 = (.error (.badTarget source target), 10) := by
  obtain ⟨places, _, _⟩ :=
    decode_places_labels (fun n => (⟨n⟩, n + 1)) hop ⟨#[]⟩ hopRanges hopLocals 10
  obtain ⟨is, offsets, reflects, _, drawn⟩ := places hopBody decode_hop
  have four : offsets.length = 4 := reflects.count.symm
  rw [four] at drawn
  obtain ⟨_, draws, targets⟩ := decode_places_labels (fun n => (⟨n⟩, n + 1)) astray ⟨#[]⟩ [] [] 10
  have read : freeInstructions ⟨#[]⟩ astray = .ok [⟨0, 0xa7, .jump (-1)⟩] := rfl
  have fault : ¬IsBoundary [⟨0, 0xa7, .jump (-1)⟩] astray.length (-1) := fun boundary =>
    absurd boundary.natural (by decide)
  obtain ⟨source, target, error⟩ := (targets _ read).1.mpr ⟨-1, List.mem_singleton_self _, fault⟩
  exact ⟨decode_hop, ⟨is, offsets, reflects⟩, drawn, read, source, target, error, draws _ error⟩

end Code

end JvmEdit
