import JvmEdit.Proofs.ClassFile.Unchecked
import JvmEdit.Proofs.ClassFile.Placed
import Mathlib.Data.List.Sort
set_option autoImplicit false

namespace JvmEdit

namespace Code

-- The offsets up to the end of the code that are referred to, in rising order.
def risingAims (size : Nat) (targets : List Nat) : List Nat := (List.range (size + 1)).filter (· ∈ targets)

-- Labels named after the place of their offset among these.
def nameIn (offsets : List Nat) (o : Nat) : LabelId := ⟨offsets.idxOf o⟩

section Numbering

variable (size : Nat) (targets : List Nat)

theorem mem_rising_aims (o : Nat) : o ∈ risingAims size targets ↔ o ≤ size ∧ o ∈ targets := by
  rw [risingAims, List.mem_filter, List.mem_range, Nat.lt_succ_iff, decide_eq_true_eq]

theorem rising_aims_sorted : (risingAims size targets).Pairwise (· < ·) := List.pairwise_lt_range.filter _

theorem to_list_offset_flags :
    (offsetFlags size targets).toList = (List.range (size + 1)).map (decide <| · ∈ targets) := by
  refine List.ext_getElem? fun o => ?_
  rw [Array.getElem?_toList, get_elem?_offset_flags, List.getElem?_map]
  by_cases inside : o ≤ size
  · rw [if_pos inside, List.getElem?_range (Nat.lt_succ_of_le inside)]
    rfl
  · rw [if_neg inside, List.getElem?_eq_none (by rw [List.length_range]; omega)]
    rfl

theorem count_offset_flags (o : Nat) (inside : o ≤ size + 1) :
    ((offsetFlags size targets).toList.take o).count true = ((List.range o).filter (· ∈ targets)).length := by
  rw [to_list_offset_flags, ← List.map_take, List.take_range, Nat.min_eq_left inside, List.count, List.countP_map,
    ← List.countP_eq_length_filter]
  refine List.countP_congr fun o _ => ?_
  simp

theorem label_count_eq : (numberOffsets (offsetFlags size targets)).2 = (risingAims size targets).length := by
  have all := count_offset_flags size targets (size + 1) (Nat.le_refl _)
  rw [List.take_of_length_le (by rw [to_list_offset_flags, List.length_map, List.length_range])] at all
  rw [number_offsets_count, all]
  rfl

theorem idx_of_rising_aims (o : Nat) (inside : o ≤ size) (member : o ∈ targets) :
    (risingAims size targets).idxOf o = ((List.range o).filter (· ∈ targets)).length := by
  obtain ⟨rest, split⟩ : ∃ rest, List.range (size + 1) = List.range o ++ o :: rest := by
    have parts : size + 1 = o + ((size - o) + 1) := by omega
    rw [parts, List.range_add, List.range_succ_eq_map, List.map_cons, Nat.add_zero]
    exact ⟨_, rfl⟩
  have absent : o ∉ (List.range o).filter (· ∈ targets) := fun early =>
    Nat.lt_irrefl o (List.mem_range.mp (List.mem_of_mem_filter early))
  have here : (o :: rest).filter (· ∈ targets) = o :: rest.filter (· ∈ targets) :=
    List.filter_cons_of_pos (decide_eq_true member)
  rw [risingAims, split, List.filter_append, here, List.idxOf_append_of_notMem absent, List.idxOf_cons_self,
    Nat.add_zero]

theorem get?_named (o : Nat) : (LabelMap.of size targets).get? o =
    if o ∈ risingAims size targets then some (nameIn (risingAims size targets) o) else none := by
  rw [LabelMap.get?_of]
  by_cases here : o ≤ size ∧ o ∈ targets
  · rw [if_pos here, if_pos ((mem_rising_aims size targets o).mpr here), nameIn,
      idx_of_rising_aims size targets o here.1 here.2, count_offset_flags size targets o (by omega)]
  · rw [if_neg here, if_neg (here ∘ (mem_rising_aims size targets o).mp)]

theorem label_named (o : Nat) (member : o ∈ risingAims size targets) :
    (LabelMap.of size targets).label o = nameIn (risingAims size targets) o := by
  rw [LabelMap.label, get?_named, if_pos member]
  rfl

end Numbering

section Standing

variable (labels : LabelMap) (size : Nat)

theorem labels_labelled (is : List RawInstruction) (bare : ∀ i ∈ is, i.operand.Bare) :
    (labelled labels size is).filterMap (·.2.label?) = (starts is size).filterMap labels.get? := by
  have markers : ∀ o, (labels.marker o).filterMap (·.2.label?) = (labels.get? o).toList := by
    intro o
    simp only [LabelMap.marker]
    cases labels.get? o <;> rfl
  have single : ∀ o, List.filterMap labels.get? [o] = (labels.get? o).toList := by
    intro o
    cases found : labels.get? o with
    | none => rw [List.filterMap_cons_none found, List.filterMap_nil]; rfl
    | some label => rw [List.filterMap_cons_some found, List.filterMap_nil]; rfl
  induction is with
  | nil => exact (markers size).trans (single size).symm
  | cons i is ih =>
      obtain ⟨first, rest⟩ := List.forall_mem_cons.mp bare
      have skipped : ((i.opcode, labels.operand i.operand) :: labelled labels size is).filterMap (·.2.label?) =
          (labelled labels size is).filterMap (·.2.label?) :=
        List.filterMap_cons_none (label?_operand labels i.operand first)
      rw [labelled_cons, List.filterMap_append, markers, skipped, ih rest, ← single, ← List.filterMap_append]
      rfl

theorem labelled_split (is : List RawInstruction) (bare : ∀ i ∈ is, i.operand.Bare)
    (sorted : (starts is size).Pairwise (· < ·)) (o : Nat) (label : LabelId)
    (member : o ∈ starts is size) (found : labels.get? o = some label) :
    ∃ before after, labelled labels size is = before ++ (Opcode.label, .label label) :: after ∧
      before.countP isReal = rank is o ∧
      ((o = size ∧ after = []) ∨ ∃ i ∈ is, i.offset = o ∧
        after.head? = some (i.opcode, labels.operand i.operand)) := by
  have marker : labels.marker o = [(Opcode.label, .label label)] := by rw [LabelMap.marker, found]
  induction is with
  | nil =>
      cases List.mem_singleton.mp member
      exact ⟨[], [], marker, rfl, .inl ⟨rfl, rfl⟩⟩
  | cons i is ih =>
      rw [starts_cons] at sorted member
      obtain ⟨first, rest⟩ := List.pairwise_cons.mp sorted
      obtain ⟨bareFirst, bareRest⟩ := List.forall_mem_cons.mp bare
      rw [labelled_cons]
      rcases List.mem_cons.mp member with rfl | later
      · have none : rank (i :: is) i.offset = 0 := by
          refine rank_first _ _ (List.forall_mem_cons.mpr ⟨Nat.le_refl _, fun j inside => ?_⟩)
          exact Nat.le_of_lt (first _ (List.mem_append_left _ (List.mem_map_of_mem inside)))
        exact ⟨[], _, by rw [marker]; rfl, none.symm, .inr ⟨i, List.mem_cons_self, rfl, rfl⟩⟩
      · obtain ⟨before, after, isCode, isRank, stands⟩ := ih bareRest rest later
        refine ⟨labels.marker i.offset ++ (i.opcode, labels.operand i.operand) :: before, after, ?_, ?_, ?_⟩
        · rw [isCode, List.append_assoc]
          rfl
        · have counted : rank (i :: is) o = rank is o + 1 :=
            List.countP_cons_of_pos (decide_eq_true (first o later))
          have markers : (labels.marker i.offset).countP isReal = 0 := by
            simp only [LabelMap.marker]
            cases labels.get? i.offset <;> rfl
          have real : isReal (i.opcode, labels.operand i.operand) = true :=
            is_real_of_none (label?_operand labels i.operand bareFirst)
          rw [counted, List.countP_append, markers, List.countP_cons_of_pos real, isRank, Nat.zero_add]
        · rcases stands with atEnd | ⟨j, inside, isOffset, head⟩
          · exact .inl atEnd
          · exact .inr ⟨j, List.mem_cons_of_mem _ inside, isOffset, head⟩

end Standing

-- What a body says of the code it was read from: where its labels stand, and that everything in it
-- refers to the label at the offset that was written.
structure Reflects (pool : Pool) (bytes : List UInt8) (ranges : List RawRange) (locals : List RawLocal)
    (is : List RawInstruction) (offsets : List Nat) (body : Body) : Prop where
  listing : Scans pool ⟨bytes, 0⟩ is ⟨[], bytes.length⟩
  rising : (starts is bytes.length).Pairwise (· < ·)
  sorted : offsets.Pairwise (· < ·)
  aimed : ∀ o, o ∈ offsets ↔ o ∈ aims is ranges locals
  boundary : ∀ o ∈ offsets, o ∈ starts is bytes.length
  count : body.labelCount = offsets.length
  instructions : body.instructions.filter isReal =
    is.map fun i => (i.opcode, i.operand.aimed (nameIn offsets))
  labels : body.instructions.filterMap (·.2.label?) = (List.range offsets.length).map LabelId.mk
  stands : ∀ o ∈ offsets, ∃ before after,
    body.instructions = before ++ (Opcode.label, .label (nameIn offsets o)) :: after ∧
    before.countP isReal = rank is o ∧
    (o = bytes.length ∧ after = [] ∨ ∃ i ∈ is, i.offset = o ∧
      after.head? = some (i.opcode, i.operand.aimed (nameIn offsets)))
  ranges : body.ranges = ranges.map fun r => ⟨nameIn offsets r.start.toNat, nameIn offsets r.stop.toNat,
    nameIn offsets r.handler.toNat, r.catchType⟩
  locals : body.locals = locals.map fun v => ⟨v.name, v.descriptor, v.signature,
    nameIn offsets v.start.toNat, nameIn offsets v.stop, v.slot⟩
  used : ∀ label ∈ body.referred, label ∈ body.instructions.filterMap (·.2.label?)

section Reading

variable (bytes : List UInt8) (pool : Pool) (ranges : List RawRange) (locals : List RawLocal)

theorem boundary_iff (is : List RawInstruction) (size o : Nat) (sorted : (starts is size).Pairwise (· < ·)) :
    (offsetFlags size (size :: is.map (·.offset)))[o]? = some true ↔ o ∈ starts is size := by
  have isStart : o ∈ size :: is.map (·.offset) ↔ o ∈ starts is size := by
    rw [starts, List.mem_append, List.mem_singleton, List.mem_cons, or_comm]
  rw [get_elem?_offset_flags]
  by_cases inside : o ≤ size
  · rw [if_pos inside, Option.some_inj, decide_eq_true_eq, isStart]
  · rw [if_neg inside]
    exact iff_of_false (by simp) fun member => inside (starts_le is size o sorted member)

theorem decode_of_read (is : List RawInstruction) (read : readInstructions pool bytes = .ok is) :
    ((∀ o ∈ aims is ranges locals, o ∈ starts is bytes.length) ∧
      decode bytes pool ranges locals = .ok (bodyOf is ranges locals
        (LabelMap.of bytes.length (aims is ranges locals))
        (risingAims bytes.length (aims is ranges locals)).length bytes.length)) ∨
    ∃ m ∈ mentions is ranges locals, m.target ∉ starts is bytes.length ∧
      decode bytes pool ranges locals = .error (.badTarget m.source m.target) := by
  have sorted := (scans_of_read pool bytes is read).rising.1
  simp only [decode, read, bind, Except.bind]
  cases found : ((mentions is ranges locals).mergeSort Mention.le).find? fun m =>
      decide ((offsetFlags bytes.length (bytes.length :: is.map (·.offset)))[m.target]? ≠ some true) with
  | none =>
      refine .inl ⟨?_, ?_⟩
      · intro o isAim
        rw [← target_mentions] at isAim
        obtain ⟨m, member, rfl⟩ := List.mem_map.mp isAim
        have fine := List.find?_eq_none.mp found m (List.mem_mergeSort.mpr member)
        rw [decide_eq_true_eq, not_not] at fine
        exact (boundary_iff is bytes.length m.target sorted).mp fine
      · rw [← label_count_eq, ← target_mentions]
        rfl
  | some m =>
      refine .inr ⟨m, List.mem_mergeSort.mp (List.mem_of_find?_eq_some found), ?_, rfl⟩
      have fault := List.find?_some found
      rw [decide_eq_true_eq] at fault
      exact fun isStart => fault ((boundary_iff is bytes.length m.target sorted).mpr isStart)

theorem aimed_congr (f g : Nat → LabelId) (operand : RawOperand) (same : ∀ t ∈ operand.targets, f t = g t) :
    operand.aimed f = operand.aimed g := by
  cases operand with
  | ready operand => rfl
  | jump target => rw [RawOperand.aimed, RawOperand.aimed, same target (List.mem_singleton_self _)]
  | switch otherwise cases =>
      rw [RawOperand.aimed, RawOperand.aimed, same otherwise List.mem_cons_self]
      congr 1
      refine List.map_congr_left fun c member => ?_
      rw [same c.2 (List.mem_cons_of_mem _ (List.mem_map_of_mem member))]

section Named

variable (is : List RawInstruction) (size : Nat) (sorted : (starts is size).Pairwise (· < ·))
  (boundary : ∀ o ∈ aims is ranges locals, o ∈ starts is size)

include sorted boundary

theorem mem_offsets (o : Nat) (isAim : o ∈ aims is ranges locals) :
    o ∈ risingAims size (aims is ranges locals) :=
  (mem_rising_aims size _ o).mpr ⟨starts_le is size o sorted (boundary o isAim), isAim⟩

theorem label_aim (o : Nat) (isAim : o ∈ aims is ranges locals) :
    (LabelMap.of size (aims is ranges locals)).label o = nameIn (risingAims size (aims is ranges locals)) o :=
  label_named size _ o (mem_offsets ranges locals is size sorted boundary o isAim)

theorem operand_named (i : RawInstruction) (member : i ∈ is) :
    (LabelMap.of size (aims is ranges locals)).operand i.operand =
      i.operand.aimed (nameIn (risingAims size (aims is ranges locals))) := by
  rw [RawOperand.operand_aimed]
  refine aimed_congr _ _ _ fun t isTarget => label_aim ranges locals is size sorted boundary t ?_
  exact List.mem_append_left _ (List.mem_append_left _ (List.mem_flatMap.mpr ⟨i, member, isTarget⟩))

theorem ranges_named (labelCount : Nat) :
    (bodyOf is ranges locals (LabelMap.of size (aims is ranges locals)) labelCount size).ranges =
      ranges.map fun r =>
        let name := nameIn (risingAims size (aims is ranges locals))
        ⟨name r.start.toNat, name r.stop.toNat, name r.handler.toNat, r.catchType⟩ := by
  refine List.map_congr_left fun r member => ?_
  have named : ∀ o ∈ [r.start.toNat, r.stop.toNat, r.handler.toNat], _ := fun o inside =>
    label_aim ranges locals is size sorted boundary o (List.mem_append_left _ (List.mem_append_right _
      (List.mem_flatMap.mpr ⟨r, member, inside⟩)))
  rw [named r.start.toNat (by simp), named r.stop.toNat (by simp), named r.handler.toNat (by simp)]

theorem locals_named (labelCount : Nat) :
    (bodyOf is ranges locals (LabelMap.of size (aims is ranges locals)) labelCount size).locals =
      locals.map fun v =>
        let name := nameIn (risingAims size (aims is ranges locals))
        ⟨v.name, v.descriptor, v.signature, name v.start.toNat, name v.stop, v.slot⟩ := by
  refine List.map_congr_left fun v member => ?_
  have named : ∀ o ∈ [v.start.toNat, v.stop], _ := fun o inside =>
    label_aim ranges locals is size sorted boundary o (List.mem_append_right _
      (List.mem_flatMap.mpr ⟨v, member, inside⟩))
  rw [named v.start.toNat (by simp), named v.stop (by simp)]

end Named

theorem map_name_in (offsets : List Nat) (sorted : offsets.Pairwise (· < ·)) :
    offsets.map (nameIn offsets) = (List.range offsets.length).map LabelId.mk := by
  have distinct : offsets.Nodup := sorted.imp Nat.ne_of_lt
  refine List.ext_getElem (by simp) fun i inside _ => ?_
  rw [List.length_map] at inside
  rw [List.getElem_map, List.getElem_map, List.getElem_range, nameIn, distinct.idxOf_getElem i inside]

theorem filter_map_named (size : Nat) (targets starts : List Nat) (rising : starts.Pairwise (· < ·))
    (boundary : ∀ o ∈ risingAims size targets, o ∈ starts) :
    starts.filterMap (LabelMap.of size targets).get? =
      (List.range (risingAims size targets).length).map LabelId.mk := by
  have kept : starts.filter (· ∈ risingAims size targets) = risingAims size targets := by
    refine (rising.filter _).eq_of_mem_iff (rising_aims_sorted size targets) fun o => ?_
    rw [List.mem_filter, decide_eq_true_eq]
    exact ⟨And.right, fun member => ⟨boundary o member, member⟩⟩
  have guarded : (LabelMap.of size targets).get? = fun o => if decide (o ∈ risingAims size targets) = true
      then (some ∘ nameIn (risingAims size targets)) o else none := by
    funext o
    rw [get?_named]
    simp only [decide_eq_true_eq, Function.comp_apply]
  rw [guarded, ← List.filterMap_filter, kept, List.filterMap_eq_map, map_name_in _ (rising_aims_sorted size targets)]

theorem reflects_of_decode (body : Body) (decoded : decode bytes pool ranges locals = .ok body) :
    ∃ is offsets, readInstructions pool bytes = .ok is ∧
      Reflects pool bytes ranges locals is offsets body := by
  obtain ⟨is, read, _⟩ := except_bind _ _ _ decoded
  rcases decode_of_read bytes pool ranges locals is read with ⟨boundary, done⟩ | ⟨m, _, _, error⟩
  · have scans := scans_of_read pool bytes is read
    have rising := scans.rising.1
    have bare := scans.bare
    let size := bytes.length
    let targets := aims is ranges locals
    let offsets := risingAims size targets
    have isOffset := mem_offsets ranges locals is size rising boundary
    have operands := operand_named ranges locals is size rising boundary
    have isTarget : ∀ o ∈ offsets, o ∈ targets := fun o member => ((mem_rising_aims size targets o).mp member).2
    obtain ⟨body', decoded', tidy, _⟩ := decode_spec is ranges locals bytes pool read bare rising boundary
    rw [decoded] at decoded'
    cases decoded'
    rw [done] at decoded
    cases decoded
    have boundaries : ∀ o ∈ offsets, o ∈ starts is size := fun o member => boundary o (isTarget o member)
    refine ⟨is, offsets, read, scans, rising, rising_aims_sorted size targets, fun o => ⟨isTarget o, isOffset o⟩,
      boundaries, rfl, ?_, ?_, ?_, ?_, ?_, ?_⟩
    · refine (filter_labelled _ size is bare).trans (List.map_congr_left fun i member => ?_)
      rw [operands i member]
    · exact (labels_labelled _ size is bare).trans (filter_map_named size targets _ rising boundaries)
    · intro o member
      have found : (LabelMap.of size targets).get? o = some (nameIn offsets o) := by
        rw [get?_named, if_pos member]
      obtain ⟨before, after, isCode, isRank, place⟩ :=
        labelled_split _ size is bare rising o _ (boundaries o member) found
      refine ⟨before, after, isCode, isRank, place.imp_right ?_⟩
      rintro ⟨i, inside, isAt, head⟩
      exact ⟨i, inside, isAt, by rw [head, operands i inside]⟩
    · exact ranges_named ranges locals is size rising boundary _
    · exact locals_named ranges locals is size rising boundary _
    · intro label referred
      obtain ⟨n, marked⟩ := (tidy.used label).mpr referred
      obtain ⟨q, isLabel, _⟩ := (mem_marks_iff 0 _ label n).mp marked
      obtain ⟨i, here, isMarker⟩ := Option.bind_eq_some_iff.mp isLabel
      exact List.mem_filterMap.mpr ⟨i, List.mem_of_getElem? here, isMarker⟩
  · rw [error] at decoded
    cases decoded

-- Everything that code refers to, also what lies before its start.
def allAims (free : List FreeInstruction) (ranges : List RawRange) (locals : List RawLocal) : List Int :=
  (listAims free).map Prod.snd ++
    (ranges.flatMap fun r => [r.start.toNat, r.stop.toNat, r.handler.toNat]).map Int.ofNat ++
    (locals.flatMap fun v => [v.start.toNat, v.stop]).map Int.ofNat

-- The place is the start of an instruction or the end of the code.
def IsBoundary (free : List FreeInstruction) (size : Nat) (place : Int) : Prop :=
  place = size ∨ ∃ i ∈ free, place = i.offset

theorem targets_checked (operand : FreeOperand) : operand.checked.targets = operand.targets.map Int.toNat := by
  cases operand <;> simp [FreeOperand.checked, RawOperand.targets, FreeOperand.targets, Function.comp_def]

theorem snd_list_aims (free : List FreeInstruction) :
    (listAims free).map Prod.snd = free.flatMap fun i => i.operand.targets := by
  simp [listAims, FreeInstruction.aims, operandAims, List.map_flatMap, Function.comp_def]

theorem all_aims_checked (free : List FreeInstruction) (fine : ∀ aim ∈ listAims free, 0 ≤ aim.2) :
    allAims free ranges locals = (aims (free.map FreeInstruction.checked) ranges locals).map Int.ofNat := by
  have targets : (free.flatMap fun i => i.operand.targets) =
      ((free.map FreeInstruction.checked).flatMap fun i => i.operand.targets).map Int.ofNat := by
    rw [List.flatMap_map, List.map_flatMap, List.flatMap_def, List.flatMap_def]
    refine congrArg List.flatten (List.map_congr_left fun i member => ?_)
    rw [FreeInstruction.checked, targets_checked, List.map_map]
    refine (List.map_id _).symm.trans (List.map_congr_left fun t isTarget => ?_)
    have natural := fine (i.offset, t) (List.mem_flatMap.mpr ⟨i, member, List.mem_map_of_mem isTarget⟩)
    exact (Int.toNat_of_nonneg natural).symm
  rw [allAims, snd_list_aims, targets, aims, List.map_append, List.map_append]

theorem is_boundary_iff (free : List FreeInstruction) (size o : Nat) :
    IsBoundary free size o ↔ o ∈ starts (free.map FreeInstruction.checked) size := by
  have offsets : (free.map FreeInstruction.checked).map (·.offset) = free.map (·.offset) := by
    rw [List.map_map]
    rfl
  rw [starts, offsets, List.mem_append, List.mem_singleton, List.mem_map, IsBoundary, or_comm]
  simp only [Int.natCast_inj, eq_comm]

theorem IsBoundary.natural {free : List FreeInstruction} {size : Nat} {place : Int}
    (boundary : IsBoundary free size place) : 0 ≤ place := by
  rcases boundary with rfl | ⟨i, _, rfl⟩ <;> exact Int.natCast_nonneg _

theorem bad_target_iff (free : List FreeInstruction) (read : freeInstructions pool bytes = .ok free) :
    ((∃ source target, decode bytes pool ranges locals = .error (.badTarget source target)) ↔
      ∃ place ∈ allAims free ranges locals, ¬IsBoundary free bytes.length place) ∧
    ((∃ body, decode bytes pool ranges locals = .ok body) ↔
      ∀ place ∈ allAims free ranges locals, IsBoundary free bytes.length place) := by
  -- reading is stopped at a target before the code, or comes to the same instructions
  have refused : (∃ source target, decode bytes pool ranges locals = .error (.badTarget source target) ∧
        ∃ place ∈ allAims free ranges locals, ¬IsBoundary free bytes.length place) ∨
      (∃ body, decode bytes pool ranges locals = .ok body ∧
        ∀ place ∈ allAims free ranges locals, IsBoundary free bytes.length place) := by
    by_cases bad : ∃ aim ∈ listAims free, aim.2 < 0
    · obtain ⟨aim, member, negative, error⟩ := blame_of_free pool bytes free read bad
      refine .inl ⟨aim.1, aim.2, ?_, aim.2, ?_, fun boundary => Int.not_le.mpr negative boundary.natural⟩
      · simp only [decode, error, bind, Except.bind]
      · exact List.mem_append_left _ (List.mem_append_left _ (List.mem_map_of_mem member))
    · have fine : ∀ aim ∈ listAims free, 0 ≤ aim.2 := fun aim member =>
        Int.not_lt.mp fun negative => bad ⟨aim, member, negative⟩
      have checked := read_of_free pool bytes free read fine
      rw [all_aims_checked ranges locals free fine]
      rcases decode_of_read bytes pool ranges locals _ checked with ⟨boundary, done⟩ | ⟨m, member, fault, error⟩
      · refine .inr ⟨_, done, List.forall_mem_map.mpr fun o isAim => ?_⟩
        exact (is_boundary_iff free bytes.length o).mpr (boundary o isAim)
      · refine .inl ⟨m.source, m.target, error, m.target, ?_, (is_boundary_iff free bytes.length _).not.mpr fault⟩
        rw [← target_mentions]
        exact List.mem_map_of_mem (List.mem_map_of_mem member)
  rcases refused with ⟨source, target, error, place, member, fault⟩ | ⟨body, done, all⟩
  · refine ⟨iff_of_true ⟨source, target, error⟩ ⟨place, member, fault⟩, iff_of_false ?_ ?_⟩
    · rintro ⟨body, done⟩
      rw [error] at done
      cases done
    · exact fun all => fault (all place member)
  · refine ⟨iff_of_false ?_ ?_, iff_of_true ⟨body, done⟩ all⟩
    · rintro ⟨source, target, error⟩
      rw [done] at error
      cases error
    · rintro ⟨place, member, fault⟩
      exact fault (all place member)

end Reading

end Code

end JvmEdit
