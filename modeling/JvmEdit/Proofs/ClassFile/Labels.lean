import JvmEdit.Proofs.ClassFile.Instructions
set_option autoImplicit false

namespace JvmEdit

namespace Code

theorem get_elem?_foldl_set (offsets : List Nat) (flags : Array Bool) (o : Nat) :
    (offsets.foldl (fun flags offset => flags.setIfInBounds offset true) flags)[o]? =
      flags[o]?.map fun flag => flag || decide (o ∈ offsets) := by
  induction offsets generalizing flags with
  | nil =>
      cases found : flags[o]? with
      | none => rw [List.foldl_nil, found, Option.map_none]
      | some flag => rw [List.foldl_nil, found]; simp
  | cons offset offsets ih =>
      rw [List.foldl_cons, ih, Array.getElem?_setIfInBounds]
      by_cases here : offset = o
      · subst here
        by_cases inside : offset < flags.size
        · simp [inside]
        · simp [inside]
      · cases found : flags[o]? with
        | none => simp [here]
        | some flag => simp [here, Ne.symm here]

theorem get_elem?_offset_flags (size : Nat) (offsets : List Nat) (o : Nat) :
    (offsetFlags size offsets)[o]? = if o ≤ size then some (decide (o ∈ offsets)) else none := by
  rw [offsetFlags, get_elem?_foldl_set, Array.getElem?_replicate]
  by_cases inside : o ≤ size
  · rw [if_pos (by omega), if_pos inside]
    simp
  · rw [if_neg (by omega), if_neg inside]
    rfl

-- The numbers of flags from `next` on.
def numbered (next : Nat) : List Bool → List (Option LabelId)
  | [] => []
  | flag :: flags =>
      if flag then some ⟨next⟩ :: numbered (next + 1) flags else none :: numbered next flags

theorem foldl_numbers (flags : List Bool) (numbers : Array (Option LabelId)) (next : Nat) :
    (flags.foldl (fun (state : Array (Option LabelId) × Nat) flag =>
      if flag then (state.1.push (some ⟨state.2⟩), state.2 + 1)
      else (state.1.push none, state.2)) (numbers, next)).1.toList =
        numbers.toList ++ numbered next flags := by
  induction flags generalizing numbers next with
  | nil => simp [numbered]
  | cons flag flags ih =>
      rw [List.foldl_cons]
      cases flag with
      | true =>
          rw [if_pos rfl, ih, numbered, if_pos rfl, Array.toList_push, List.append_assoc]
          rfl
      | false =>
          rw [if_neg Bool.false_ne_true, ih, numbered, if_neg Bool.false_ne_true, Array.toList_push,
            List.append_assoc]
          rfl

theorem number_offsets_to_list (flags : Array Bool) :
    (numberOffsets flags).1.toList = numbered 0 flags.toList := by
  have numbers := foldl_numbers flags.toList #[] 0
  rw [numberOffsets, ← Array.foldl_toList]
  exact numbers

theorem get_elem?_numbered (next : Nat) (flags : List Bool) (o : Nat) :
    (numbered next flags)[o]? = flags[o]?.map fun flag =>
      if flag then some ⟨next + (flags.take o).count true⟩ else none := by
  induction flags generalizing next o with
  | nil => rfl
  | cons flag flags ih =>
      cases o with
      | zero => cases flag <;> simp [numbered]
      | succ o =>
          cases flag with
          | true =>
              rw [numbered, if_pos rfl, List.getElem?_cons_succ, ih, List.getElem?_cons_succ,
                List.take_succ_cons, List.count_cons_self]
              congr 2
              funext flag
              congr 3
              omega
          | false =>
              rw [numbered, if_neg Bool.false_ne_true, List.getElem?_cons_succ, ih,
                List.getElem?_cons_succ, List.take_succ_cons, List.count_cons_of_ne (by decide)]

theorem count_take_lt (flags : List Bool) (o o' : Nat) (flagged : flags[o]? = some true)
    (before : o < o') : (flags.take o).count true < (flags.take o').count true := by
  have more : ((flags.take (o + 1)).count true) ≤ (flags.take o').count true :=
    List.Sublist.count_le true (List.take_sublist_take_left before)
  rw [List.take_add_one, flagged, List.count_append] at more
  simp only [Option.toList_some, List.count_singleton_self] at more
  omega

namespace LabelMap

-- The labels of these offsets.
def of (size : Nat) (offsets : List Nat) : LabelMap := ⟨(numberOffsets (offsetFlags size offsets)).1⟩

variable (size : Nat) (offsets : List Nat)

theorem get?_of (o : Nat) : (of size offsets).get? o =
    if o ≤ size ∧ o ∈ offsets then some ⟨((offsetFlags size offsets).toList.take o).count true⟩
    else none := by
  have numbers := get_elem?_numbered 0 (offsetFlags size offsets).toList o
  rw [← number_offsets_to_list, Array.getElem?_toList, Array.getElem?_toList,
    get_elem?_offset_flags] at numbers
  rw [get?, of, numbers]
  by_cases inside : o ≤ size
  · by_cases mentioned : o ∈ offsets
    · simp [inside, mentioned]
    · simp [inside, mentioned]
  · simp [inside]

theorem get?_lt (o o' : Nat) (label label' : LabelId) (before : o < o')
    (found : (of size offsets).get? o = some label)
    (found' : (of size offsets).get? o' = some label') : label.val < label'.val := by
  rw [get?_of] at found found'
  split at found
  · rename_i flagged
    split at found'
    · cases found
      cases found'
      refine count_take_lt _ o o' ?_ before
      rw [Array.getElem?_toList, get_elem?_offset_flags, if_pos flagged.1]
      simp [flagged.2]
    · cases found'
  · cases found

theorem get?_inj (o o' : Nat) (label : LabelId) (found : (of size offsets).get? o = some label)
    (found' : (of size offsets).get? o' = some label) : o = o' := by
  rcases Nat.lt_trichotomy o o' with before | same | after
  · exact absurd (get?_lt size offsets o o' label label before found found') (Nat.lt_irrefl _)
  · exact same
  · exact absurd (get?_lt size offsets o' o label label after found' found) (Nat.lt_irrefl _)

theorem get?_label (o : Nat) (inside : o ≤ size) (mentioned : o ∈ offsets) :
    (of size offsets).get? o = some ((of size offsets).label o) := by
  rw [label, get?_of, if_pos ⟨inside, mentioned⟩]
  rfl

end LabelMap

-- The labels of code, each with the number of instructions that stand before it.
def marks (before : Nat) : List (Opcode × Operand) → List (LabelId × Nat)
  | [] => []
  | i :: code =>
      match i.2.label? with
      | some label => (label, before) :: marks before code
      | none => marks (before + 1) code

-- How many instructions start before an offset.
def rank (is : List RawInstruction) (o : Nat) : Nat := is.countP fun i => i.offset < o

def starts (is : List RawInstruction) (size : Nat) : List Nat := is.map (·.offset) ++ [size]

theorem starts_cons (i : RawInstruction) (is : List RawInstruction) (size : Nat) :
    starts (i :: is) size = i.offset :: starts is size := rfl

-- Code with the markers of its labels.
def labelled (labels : LabelMap) (size : Nat) (is : List RawInstruction) : List (Opcode × Operand) :=
  is.flatMap (fun i => labels.marker i.offset ++ [(i.opcode, labels.operand i.operand)]) ++
    labels.marker size

def RawOperand.Bare : RawOperand → Prop
  | .ready operand => operand.label? = none ∧ operand.targets = []
  | _ => True

theorem label?_operand (labels : LabelMap) (operand : RawOperand) (bare : operand.Bare) :
    (labels.operand operand).label? = none := by
  cases operand with
  | ready operand => exact bare.1
  | jump target => rfl
  | switch otherwise cases => rfl

theorem labelled_cons (labels : LabelMap) (size : Nat) (i : RawInstruction)
    (is : List RawInstruction) : labelled labels size (i :: is) =
      labels.marker i.offset ++ (i.opcode, labels.operand i.operand) :: labelled labels size is := by
  simp [labelled]

theorem marks_marker (labels : LabelMap) (o before : Nat) (code : List (Opcode × Operand)) :
    marks before (labels.marker o ++ code) =
      (labels.get? o).toList.map (fun label => (label, before)) ++ marks before code := by
  simp only [LabelMap.marker]
  cases labels.get? o with
  | none => rfl
  | some label => rfl

theorem marks_cons (labels : LabelMap) (size before : Nat) (i : RawInstruction)
    (is : List RawInstruction) (bare : i.operand.Bare) :
    marks before (labelled labels size (i :: is)) =
      (labels.get? i.offset).toList.map (fun label => (label, before)) ++
        marks (before + 1) (labelled labels size is) := by
  rw [labelled_cons, marks_marker]
  congr 1
  rw [marks, label?_operand labels i.operand bare]

theorem marks_nil (labels : LabelMap) (size before : Nat) :
    marks before (labelled labels size []) =
      (labels.get? size).toList.map fun label => (label, before) := by
  have all := marks_marker labels size before []
  rwa [List.append_nil, marks, List.append_nil] at all

theorem mem_marks (labels : LabelMap) (size before : Nat) (is : List RawInstruction)
    (bare : ∀ i ∈ is, i.operand.Bare) (label : LabelId) (n : Nat)
    (marked : (label, n) ∈ marks before (labelled labels size is)) :
    before ≤ n ∧ ∃ o ∈ starts is size, labels.get? o = some label := by
  induction is generalizing before with
  | nil =>
      rw [marks_nil] at marked
      obtain ⟨_, found, same⟩ := List.mem_map.mp marked
      cases same
      exact ⟨Nat.le_refl _, size, List.mem_singleton_self _, Option.mem_toList.mp found⟩
  | cons i is ih =>
      rw [marks_cons labels size before i is (bare i (List.mem_cons_self ..))] at marked
      rcases List.mem_append.mp marked with here | later
      · obtain ⟨_, found, same⟩ := List.mem_map.mp here
        cases same
        exact ⟨Nat.le_refl _, i.offset, List.mem_cons_self .., Option.mem_toList.mp found⟩
      · obtain ⟨after, o, member, found⟩ := ih (before + 1)
          (fun j inside => bare j (List.mem_cons_of_mem _ inside)) later
        exact ⟨by omega, o, List.mem_cons_of_mem _ member, found⟩

theorem marks_mem (labels : LabelMap) (size before : Nat) (is : List RawInstruction)
    (bare : ∀ i ∈ is, i.operand.Bare) (o : Nat) (label : LabelId)
    (member : o ∈ starts is size) (found : labels.get? o = some label) :
    ∃ n, (label, n) ∈ marks before (labelled labels size is) := by
  induction is generalizing before with
  | nil =>
      have atEnd : o = size := List.mem_singleton.mp member
      rw [marks_nil, ← atEnd, found]
      exact ⟨before, List.mem_singleton_self _⟩
  | cons i is ih =>
      rw [marks_cons labels size before i is (bare i (List.mem_cons_self ..))]
      rw [starts_cons] at member
      rcases List.mem_cons.mp member with here | later
      · rw [← here, found]
        exact ⟨before, List.mem_cons_self ..⟩
      · obtain ⟨n, marked⟩ := ih (before + 1)
          (fun j inside => bare j (List.mem_cons_of_mem _ inside)) later
        exact ⟨n, List.mem_append_right _ marked⟩

theorem marks_rising (size : Nat) (offsets : List Nat) (before : Nat) (is : List RawInstruction)
    (bare : ∀ i ∈ is, i.operand.Bare) (sorted : (starts is size).Pairwise (· < ·)) :
    (marks before (labelled (LabelMap.of size offsets) size is)).Pairwise fun a b =>
      a.1.val < b.1.val ∧ a.2 < b.2 := by
  induction is generalizing before with
  | nil =>
      rw [marks_nil]
      cases (LabelMap.of size offsets).get? size with
      | none => exact .nil
      | some label => exact List.pairwise_singleton _ _
  | cons i is ih =>
      rw [starts_cons] at sorted
      obtain ⟨first, rest⟩ := List.pairwise_cons.mp sorted
      have bareRest : ∀ j ∈ is, j.operand.Bare :=
        fun j inside => bare j (List.mem_cons_of_mem _ inside)
      have later := ih (before + 1) bareRest rest
      rw [marks_cons _ size before i is (bare i (List.mem_cons_self ..))]
      cases found : (LabelMap.of size offsets).get? i.offset with
      | none => exact later
      | some label =>
          refine List.pairwise_cons.mpr ⟨?_, later⟩
          rintro ⟨label', n⟩ marked
          obtain ⟨behind, o, member, found'⟩ := mem_marks _ size (before + 1) is bareRest label' n
            marked
          exact ⟨LabelMap.get?_lt size offsets i.offset o label label' (first o member) found found',
            behind⟩

theorem rank_first (is : List RawInstruction) (o : Nat) (all : ∀ i ∈ is, o ≤ i.offset) :
    rank is o = 0 := by
  rw [rank, List.countP_eq_zero]
  intro i member early
  have late := all i member
  have early := of_decide_eq_true early
  omega

theorem lookup_marks (size : Nat) (offsets : List Nat) (before : Nat) (is : List RawInstruction)
    (bare : ∀ i ∈ is, i.operand.Bare) (sorted : (starts is size).Pairwise (· < ·)) (o : Nat)
    (label : LabelId) (member : o ∈ starts is size)
    (found : (LabelMap.of size offsets).get? o = some label) :
    (marks before (labelled (LabelMap.of size offsets) size is)).lookup label =
      some (before + rank is o) := by
  induction is generalizing before with
  | nil =>
      cases List.mem_singleton.mp member
      rw [marks_nil, found]
      exact List.lookup_cons_self
  | cons i is ih =>
      rw [starts_cons] at sorted
      obtain ⟨first, rest⟩ := List.pairwise_cons.mp sorted
      rw [starts_cons] at member
      rw [marks_cons _ size before i is (bare i (List.mem_cons_self ..))]
      rcases List.mem_cons.mp member with here | later
      · have none : rank (i :: is) o = 0 := by
          refine rank_first _ o fun j inside => ?_
          rcases List.mem_cons.mp inside with rfl | inside
          · exact Nat.le_of_eq here
          · rw [here]
            exact Nat.le_of_lt (first _ (List.mem_append_left _ (List.mem_map_of_mem inside)))
        rw [← here, found, none]
        exact List.lookup_cons_self
      · have counted : rank (i :: is) o = rank is o + 1 :=
          List.countP_cons_of_pos (decide_eq_true (first o later))
        have here := ih (before + 1) (fun j inside => bare j (List.mem_cons_of_mem _ inside)) rest
          later
        cases marked : (LabelMap.of size offsets).get? i.offset with
        | none =>
            rw [counted, ← Nat.add_assoc, Nat.add_right_comm]
            exact here
        | some other =>
            have differs : label ≠ other := by
              rintro rfl
              have same := LabelMap.get?_inj size offsets i.offset o label marked found
              exact Nat.ne_of_lt (first o later) same
            rw [counted, ← Nat.add_assoc, Nat.add_right_comm, Option.toList_some, List.map_singleton,
              List.singleton_append, List.lookup_cons, beq_false_of_ne differs]
            exact here

theorem filter_labelled (labels : LabelMap) (size : Nat) (is : List RawInstruction)
    (bare : ∀ i ∈ is, i.operand.Bare) :
    (labelled labels size is).filter (fun i => !i.2.isLabel) =
      is.map fun i => (i.opcode, labels.operand i.operand) := by
  have markers : ∀ o, (labels.marker o).filter (fun i => !i.2.isLabel) = [] := by
    intro o
    simp only [LabelMap.marker]
    cases labels.get? o <;> rfl
  induction is with
  | nil => exact markers size
  | cons i is ih =>
      have kept : (!(labels.operand i.operand).isLabel) = true := by
        rw [Operand.isLabel, label?_operand labels i.operand (bare i (List.mem_cons_self ..))]
        rfl
      have later := ih fun j inside => bare j (List.mem_cons_of_mem _ inside)
      rw [labelled_cons, List.filter_append, markers, List.nil_append, List.filter_cons, if_pos kept,
        later, List.map_cons]

theorem targets_labelled (labels : LabelMap) (size : Nat) (is : List RawInstruction) :
    (labelled labels size is).flatMap (fun i => i.2.targets) =
      is.flatMap fun i => (labels.operand i.operand).targets := by
  have markers : ∀ o, (labels.marker o).flatMap (fun i => i.2.targets) = [] := by
    intro o
    simp only [LabelMap.marker]
    cases labels.get? o <;> rfl
  induction is with
  | nil => exact markers size
  | cons i is ih =>
      rw [labelled_cons, List.flatMap_append, markers, List.nil_append, List.flatMap_cons, ih,
        List.flatMap_cons]

-- Code in which a label goes by the number of instructions before it, and so needs no marker.
structure Plan where
  instructions : List (Opcode × Operand)
  ranges : List TryDecl
  locals : List LocalDecl
  deriving DecidableEq, Repr, Inhabited

namespace Body

def place (b : Body) (label : LabelId) : LabelId :=
  ⟨((marks 0 b.instructions).lookup label).getD 0⟩

def plan (b : Body) : Plan where
  instructions := (b.instructions.filter fun i => !i.2.isLabel).map fun i => (i.1, i.2.mapLabels b.place)
  ranges := b.ranges.map fun r => ⟨b.place r.start, b.place r.stop, b.place r.handler, r.catchType⟩
  locals := b.locals.map fun v =>
    ⟨v.name, v.descriptor, v.signature, b.place v.start, b.place v.stop, v.slot⟩

def referred (b : Body) : List LabelId :=
  b.instructions.flatMap (fun i => i.2.targets) ++
    b.ranges.flatMap (fun r => [r.start, r.stop, r.handler]) ++
    b.locals.flatMap fun v => [v.start, v.stop]

-- One label for each place that is referred to, and none for any other.
structure Tidy (b : Body) : Prop where
  rising : (marks 0 b.instructions).Pairwise fun a b => a.1.val < b.1.val ∧ a.2 < b.2
  used : ∀ label, (∃ n, (label, n) ∈ marks 0 b.instructions) ↔ label ∈ b.referred

end Body

def RawOperand.aimed (f : Nat → LabelId) : RawOperand → Operand
  | .ready operand => operand
  | .jump target => .jump (f target)
  | .switch otherwise cases => .switch (f otherwise) (cases.map fun c => (c.1, f c.2))

namespace RawOperand

theorem operand_aimed (labels : LabelMap) (operand : RawOperand) :
    labels.operand operand = operand.aimed labels.label := by
  cases operand <;> rfl

theorem targets_aimed (f : Nat → LabelId) (operand : RawOperand) (bare : operand.Bare) :
    (operand.aimed f).targets = operand.targets.map f := by
  cases operand with
  | ready operand => exact bare.2
  | jump target => rfl
  | switch otherwise cases => simp [aimed, Operand.targets, targets, Function.comp_def]

theorem map_labels_aimed (f g : Nat → LabelId) (h : LabelId → LabelId) (operand : RawOperand)
    (bare : operand.Bare) (same : ∀ t ∈ operand.targets, h (f t) = g t) :
    (operand.aimed f).mapLabels h = operand.aimed g := by
  cases operand with
  | ready operand =>
      obtain ⟨unmarked, untargeted⟩ := bare
      cases operand with
      | label label => cases unmarked
      | jump target => cases untargeted
      | switch otherwise cases => cases untargeted
      | _ => rfl
  | jump target =>
      simp only [aimed, Operand.mapLabels, same target (List.mem_singleton_self _)]
  | switch otherwise cases =>
      simp only [aimed, Operand.mapLabels, same otherwise (List.mem_cons_self ..), List.map_map]
      congr 1
      refine List.map_congr_left fun c member => ?_
      simp only [Function.comp_apply, same c.2 (List.mem_cons_of_mem _ (List.mem_map_of_mem member))]

end RawOperand

section Decoding

variable (is : List RawInstruction) (ranges : List RawRange) (locals : List RawLocal)

def aims : List Nat :=
  is.flatMap (fun i => i.operand.targets) ++
    ranges.flatMap (fun r => [r.start.toNat, r.stop.toNat, r.handler.toNat]) ++
    locals.flatMap fun v => [v.start.toNat, v.stop]

theorem target_mentions : (mentions is ranges locals).map (·.target) = aims is ranges locals := by
  simp [mentions, aims, List.map_flatMap, Function.comp_def]

-- The plan of a body whose offsets are placed.
def rawPlan (place : Nat → LabelId) : Plan where
  instructions := is.map fun i => (i.opcode, i.operand.aimed place)
  ranges := ranges.map fun r =>
    ⟨place r.start.toNat, place r.stop.toNat, place r.handler.toNat, r.catchType⟩
  locals := locals.map fun v =>
    ⟨v.name, v.descriptor, v.signature, place v.start.toNat, place v.stop, v.slot⟩

theorem starts_le (size o : Nat) (sorted : (starts is size).Pairwise (· < ·))
    (member : o ∈ starts is size) : o ≤ size := by
  rcases List.mem_append.mp member with inside | atEnd
  · exact Nat.le_of_lt ((List.pairwise_append.mp sorted).2.2 o inside size (List.mem_singleton_self _))
  · exact Nat.le_of_eq (List.mem_singleton.mp atEnd)

-- The body that is read when everything refers to the start of an instruction or to the end.
def bodyOf (labels : LabelMap) (labelCount size : Nat) : Body where
  labelCount := labelCount
  instructions := labelled labels size is
  ranges := ranges.map fun r => ⟨labels.label r.start.toNat, labels.label r.stop.toNat,
    labels.label r.handler.toNat, r.catchType⟩
  locals := locals.map fun v => ⟨v.name, v.descriptor, v.signature, labels.label v.start.toNat,
    labels.label v.stop, v.slot⟩

theorem decode_eq (bytes : List UInt8) (pool : Pool)
    (read : readInstructions pool bytes = .ok is)
    (sorted : (starts is bytes.length).Pairwise (· < ·))
    (aimed : ∀ o ∈ aims is ranges locals, o ∈ starts is bytes.length) :
    ∃ labelCount, decode bytes pool ranges locals = .ok (bodyOf is ranges locals
      (LabelMap.of bytes.length (aims is ranges locals)) labelCount bytes.length) := by
  have faultless : ((mentions is ranges locals).mergeSort Mention.le).find? (fun m =>
      (offsetFlags bytes.length (bytes.length :: is.map (·.offset)))[m.target]? ≠ some true) =
        none := by
    rw [List.find?_eq_none]
    intro m member fault
    have isAim : m.target ∈ aims is ranges locals := by
      rw [← target_mentions]
      exact List.mem_map_of_mem (List.mem_mergeSort.mp member)
    have isStart := aimed m.target isAim
    rw [get_elem?_offset_flags, if_pos (starts_le is bytes.length m.target sorted isStart)] at fault
    rw [starts, List.mem_append, List.mem_singleton, or_comm, ← List.mem_cons] at isStart
    simp [isStart] at fault
  rw [← target_mentions]
  refine ⟨(numberOffsets (offsetFlags bytes.length ((mentions is ranges locals).map (·.target)))).2,
    ?_⟩
  simp only [decode, read, bind, Except.bind, faultless]
  rfl

-- The labels of the offsets that are referred to.
def aimLabels (size : Nat) : LabelMap := LabelMap.of size (aims is ranges locals)

theorem referred_body_of (labels : LabelMap) (labelCount size : Nat) (bare : ∀ i ∈ is, i.operand.Bare) :
    (bodyOf is ranges locals labels labelCount size).referred =
      (aims is ranges locals).map labels.label := by
  have targets : is.flatMap (fun i => (labels.operand i.operand).targets) =
      is.flatMap fun i => i.operand.targets.map labels.label := by
    rw [List.flatMap_def, List.flatMap_def]
    refine congrArg List.flatten (List.map_congr_left fun i member => ?_)
    rw [RawOperand.operand_aimed, RawOperand.targets_aimed _ _ (bare i member)]
  simp only [bodyOf, Body.referred, targets_labelled, targets, aims, List.map_append,
    List.map_flatMap, List.flatMap_map]
  rfl

section Aimed

variable (size labelCount : Nat) (bare : ∀ i ∈ is, i.operand.Bare)
  (sorted : (starts is size).Pairwise (· < ·)) (aimed : ∀ o ∈ aims is ranges locals, o ∈ starts is size)

include sorted aimed

theorem get?_aim_labels (o : Nat) (member : o ∈ aims is ranges locals) :
    (aimLabels is ranges locals size).get? o = some ((aimLabels is ranges locals size).label o) :=
  LabelMap.get?_label size _ o (starts_le is size o sorted (aimed o member)) member

include bare

theorem place_body_of (o : Nat) (member : o ∈ aims is ranges locals) :
    (bodyOf is ranges locals (aimLabels is ranges locals size) labelCount size).place
      ((aimLabels is ranges locals size).label o) = ⟨rank is o⟩ := by
  have mark := lookup_marks size (aims is ranges locals) 0 is bare sorted o _ (aimed o member)
    (get?_aim_labels is ranges locals size sorted aimed o member)
  rw [Nat.zero_add] at mark
  exact congrArg (fun place : Option Nat => LabelId.mk (place.getD 0)) mark

theorem tidy_body_of : (bodyOf is ranges locals (aimLabels is ranges locals size) labelCount size).Tidy := by
  have found := get?_aim_labels is ranges locals size sorted aimed
  refine ⟨marks_rising size (aims is ranges locals) 0 is bare sorted, ?_⟩
  intro label
  rw [referred_body_of is ranges locals _ labelCount size bare]
  constructor
  · rintro ⟨n, marked⟩
    obtain ⟨_, o, member, isLabel⟩ := mem_marks _ size 0 is bare label n marked
    have numbered := isLabel
    rw [aimLabels, LabelMap.get?_of] at numbered
    split at numbered
    · rename_i flagged
      rw [found o flagged.2] at isLabel
      exact Option.some.inj isLabel ▸ List.mem_map_of_mem flagged.2
    · cases numbered
  · intro member
    obtain ⟨o, isAim, rfl⟩ := List.mem_map.mp member
    exact marks_mem _ size 0 is bare o _ (aimed o isAim) (found o isAim)

theorem plan_body_of :
    (bodyOf is ranges locals (aimLabels is ranges locals size) labelCount size).plan =
      rawPlan is ranges locals fun o => ⟨rank is o⟩ := by
  let labels := aimLabels is ranges locals size
  let body := bodyOf is ranges locals labels labelCount size
  have placed : ∀ o ∈ aims is ranges locals, body.place (labels.label o) = ⟨rank is o⟩ :=
    place_body_of is ranges locals size labelCount bare sorted aimed
  have isRange : ∀ r ∈ ranges, ∀ o ∈ [r.start.toNat, r.stop.toNat, r.handler.toNat],
      o ∈ aims is ranges locals := fun r member o inside => List.mem_append_left _
        (List.mem_append_right _ (List.mem_flatMap.mpr ⟨r, member, inside⟩))
  have isLocal : ∀ v ∈ locals, ∀ o ∈ [v.start.toNat, v.stop], o ∈ aims is ranges locals :=
    fun v member o inside => List.mem_append_right _ (List.mem_flatMap.mpr ⟨v, member, inside⟩)
  have instructions : body.plan.instructions =
      is.map fun i => (i.opcode, i.operand.aimed fun o => ⟨rank is o⟩) := by
    change ((labelled labels size is).filter _).map _ = _
    rw [filter_labelled labels size is bare, List.map_map]
    refine List.map_congr_left fun i member => ?_
    simp only [Function.comp_apply, RawOperand.operand_aimed]
    rw [RawOperand.map_labels_aimed _ _ _ _ (bare i member)]
    intro t isTarget
    exact placed t (List.mem_append_left _ (List.mem_append_left _
      (List.mem_flatMap.mpr ⟨i, member, isTarget⟩)))
  have isRanges : body.plan.ranges = ranges.map fun r =>
      ⟨⟨rank is r.start.toNat⟩, ⟨rank is r.stop.toNat⟩, ⟨rank is r.handler.toNat⟩, r.catchType⟩ := by
    change (ranges.map _).map _ = _
    rw [List.map_map]
    refine List.map_congr_left fun r member => ?_
    have all := isRange r member
    simp only [Function.comp_apply, placed _ (all r.start.toNat (by simp)),
      placed _ (all r.stop.toNat (by simp)), placed _ (all r.handler.toNat (by simp))]
  have isLocals : body.plan.locals = locals.map fun v =>
      ⟨v.name, v.descriptor, v.signature, ⟨rank is v.start.toNat⟩, ⟨rank is v.stop⟩, v.slot⟩ := by
    change (locals.map _).map _ = _
    rw [List.map_map]
    refine List.map_congr_left fun v member => ?_
    have all := isLocal v member
    simp only [Function.comp_apply, placed _ (all v.start.toNat (by simp)),
      placed _ (all v.stop (by simp))]
  have whole : body.plan = ⟨body.plan.instructions, body.plan.ranges, body.plan.locals⟩ := rfl
  change body.plan = _
  rw [whole, instructions, isRanges, isLocals]
  rfl

end Aimed

theorem decode_spec (bytes : List UInt8) (pool : Pool)
    (read : readInstructions pool bytes = .ok is) (bare : ∀ i ∈ is, i.operand.Bare)
    (sorted : (starts is bytes.length).Pairwise (· < ·))
    (aimed : ∀ o ∈ aims is ranges locals, o ∈ starts is bytes.length) :
    ∃ body, decode bytes pool ranges locals = .ok body ∧ body.Tidy ∧
      body.plan = rawPlan is ranges locals fun o => ⟨rank is o⟩ := by
  obtain ⟨labelCount, decoded⟩ := decode_eq is ranges locals bytes pool read sorted aimed
  refine ⟨_, decoded, ?_, ?_⟩
  · exact tidy_body_of is ranges locals bytes.length labelCount bare sorted aimed
  · exact plan_body_of is ranges locals bytes.length labelCount bare sorted aimed

end Decoding

end Code

end JvmEdit
