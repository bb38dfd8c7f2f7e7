import JvmEdit.Proofs.Flow.Moves
import JvmEdit.Flow.Blocks
import Mathlib.Algebra.GroupWithZero.Nat
set_option autoImplicit false

namespace JvmEdit

namespace Graph

variable (g : Graph)

-- The position at which a block starts.
def start (k : Nat) : Nat := ((g.blocks.take k).map Block.size).sum

-- The position belongs to the block.
structure Holds (k position : Nat) : Prop where
  block : k < g.blocks.length
  front : g.start k ≤ position
  back : position < g.start (k + 1)

structure First (k position : Nat) : Prop where
  holds : g.Holds k position
  starts : g.start k = position

structure Last (k position : Nat) : Prop where
  holds : g.Holds k position
  ends : g.start (k + 1) = position + 1

theorem start_eq (k : Nat) :
    g.start k = (((g.blocks.map Block.instructions).take k).map List.length).sum := by
  rw [start, ← List.map_take, List.map_map]
  rfl

theorem start_succ (k : Nat) :
    g.start (k + 1) = g.start k + ((g.blocks[k]?).map Block.size).getD 0 := by
  rw [start, start, List.take_add_one, List.map_append, List.sum_append]
  cases g.blocks[k]? <;> simp

theorem start_mono {k k' : Nat} (le : k ≤ k') : g.start k ≤ g.start k' := by
  induction le with
  | refl => exact Nat.le_refl _
  | step _ ih => exact Nat.le_trans ih (g.start_succ _ ▸ Nat.le_add_right _ _)

variable {g}

theorem Holds.le {k k' position : Nat} (holds : g.Holds k position)
    (holds' : g.Holds k' position) : k' ≤ k := by
  by_contra less
  have above : g.start (k + 1) ≤ g.start k' := g.start_mono (Nat.lt_of_not_le less)
  have := holds.back
  have := holds'.front
  omega

theorem Holds.unique {k k' position : Nat} (holds : g.Holds k position)
    (holds' : g.Holds k' position) : k = k' := Nat.le_antisymm (holds'.le holds) (holds.le holds')

end Graph

namespace Flow

section Cut

-- One instruction in front: what stands before the first flagged one, and the blocks from there.
def cutStep (x : Instruction × Bool) (below : List InsnId × List (List InsnId)) :
    List InsnId × List (List InsnId) :=
  if x.2 then ([], (x.1.id :: below.1) :: below.2) else (x.1.id :: below.1, below.2)

def cutPairs (pairs : List (Instruction × Bool)) : List InsnId × List (List InsnId) :=
  pairs.foldr cutStep ([], [])

-- The position of a block behind the part in front.
def offset (cut : List InsnId × List (List InsnId)) (k : Nat) : Nat :=
  cut.1.length + ((cut.2.take k).map List.length).sum

-- How many blocks have begun up to a position.
def begun (flags : List Bool) (position : Nat) : Nat := (flags.take (position + 1)).count true

theorem cut_eq (code : List Instruction) (flags : List Bool) : cut code flags =
    if (cutPairs (code.zip flags)).1.isEmpty then (cutPairs (code.zip flags)).2
    else (cutPairs (code.zip flags)).1 :: (cutPairs (code.zip flags)).2 := rfl

theorem begun_cons_zero (flag : Bool) (flags : List Bool) :
    begun (flag :: flags) 0 = if flag then 1 else 0 := by
  cases flag <;> simp [begun]

theorem begun_cons_succ (flag : Bool) (flags : List Bool) (p : Nat) :
    begun (flag :: flags) (p + 1) = begun flags p + if flag then 1 else 0 := by
  cases flag <;> simp [begun, List.take_succ_cons]

theorem offset_skip (i : Instruction) (below : List InsnId × List (List InsnId)) (k : Nat) :
    offset (cutStep (i, false) below) k = offset below k + 1 := by
  simp only [offset, cutStep, Bool.false_eq_true, if_false, List.length_cons]
  omega

theorem offset_begin_zero (i : Instruction) (below : List InsnId × List (List InsnId)) :
    offset (cutStep (i, true) below) 0 = 0 := by
  simp [offset, cutStep]

theorem offset_begin_succ (i : Instruction) (below : List InsnId × List (List InsnId)) (k : Nat) :
    offset (cutStep (i, true) below) (k + 1) = offset below k + 1 := by
  simp only [offset, cutStep, if_true, List.length_nil, List.take_succ_cons, List.map_cons,
    List.sum_cons, List.length_cons]
  omega

theorem cut_pairs_flatten (pairs : List (Instruction × Bool)) :
    (cutPairs pairs).1 ++ (cutPairs pairs).2.flatten = pairs.map (·.1.id) := by
  induction pairs with
  | nil => rfl
  | cons x pairs ih =>
      obtain ⟨i, flag⟩ := x
      rw [cutPairs, List.foldr_cons, ← cutPairs]
      cases flag with
      | false => simpa [cutStep] using ih
      | true => simpa [cutStep] using ih

theorem cut_pairs_nonempty (pairs : List (Instruction × Bool)) :
    ∀ block ∈ (cutPairs pairs).2, block ≠ [] := by
  induction pairs with
  | nil => simp [cutPairs]
  | cons x pairs ih =>
      obtain ⟨i, flag⟩ := x
      rw [cutPairs, List.foldr_cons, ← cutPairs]
      cases flag with
      | false => simpa [cutStep] using ih
      | true => simpa [cutStep] using ih

theorem begun_zero_iff (pairs : List (Instruction × Bool)) (p : Nat) (inside : p < pairs.length) :
    begun (pairs.map Prod.snd) p = 0 ↔ p < (cutPairs pairs).1.length := by
  induction pairs generalizing p with
  | nil => cases inside
  | cons x pairs ih =>
      obtain ⟨i, flag⟩ := x
      rw [cutPairs, List.foldr_cons, ← cutPairs, List.map_cons]
      cases p with
      | zero =>
          rw [begun_cons_zero]
          cases flag <;> simp [cutStep]
      | succ p =>
          rw [begun_cons_succ]
          have before := ih p (by simpa using inside)
          cases flag with
          | false => simpa [cutStep] using before
          | true => simp [cutStep]

theorem begun_iff (pairs : List (Instruction × Bool)) (p k : Nat) (inside : p < pairs.length) :
    begun (pairs.map Prod.snd) p = k + 1 ↔ k < (cutPairs pairs).2.length ∧
      offset (cutPairs pairs) k ≤ p ∧ p < offset (cutPairs pairs) (k + 1) := by
  induction pairs generalizing p k with
  | nil => cases inside
  | cons x pairs ih =>
      obtain ⟨i, flag⟩ := x
      rw [cutPairs, List.foldr_cons, ← cutPairs, List.map_cons]
      cases flag with
      | false =>
          rw [offset_skip, offset_skip]
          cases p with
          | zero =>
              rw [begun_cons_zero]
              simp
          | succ p =>
              have before := ih p k (by simpa using inside)
              rw [begun_cons_succ]
              simpa [cutStep] using before
      | true =>
          rw [offset_begin_succ]
          have blocks : (cutStep (i, true) (cutPairs pairs)).2.length = (cutPairs pairs).2.length + 1 := by
            simp [cutStep]
          rw [blocks]
          cases p with
          | zero =>
              rw [begun_cons_zero]
              cases k with
              | zero => simp [offset_begin_zero]
              | succ k => simp [offset_begin_succ]
          | succ p =>
              rw [begun_cons_succ]
              have within : p < pairs.length := by simpa using inside
              cases k with
              | zero =>
                  have before := begun_zero_iff pairs p within
                  simp only [offset_begin_zero, if_true, Nat.add_eq_right, before]
                  simp [offset]
              | succ k =>
                  have before := ih p k within
                  rw [offset_begin_succ]
                  simp only [if_true]
                  omega

theorem flag_iff (pairs : List (Instruction × Bool)) (p : Nat) :
    (pairs.map Prod.snd)[p]? = some true ↔
      ∃ k < (cutPairs pairs).2.length, offset (cutPairs pairs) k = p := by
  induction pairs generalizing p with
  | nil => simp [cutPairs]
  | cons x pairs ih =>
      obtain ⟨i, flag⟩ := x
      rw [cutPairs, List.foldr_cons, ← cutPairs, List.map_cons]
      cases flag with
      | false =>
          simp only [offset_skip]
          cases p with
          | zero => simp
          | succ p => simpa [cutStep] using ih p
      | true =>
          cases p with
          | zero =>
              refine ⟨fun _ => ⟨0, by simp [cutStep], offset_begin_zero i _⟩, fun _ => by simp⟩
          | succ p =>
              rw [List.getElem?_cons_succ, ih p]
              constructor
              · rintro ⟨k, block, starts⟩
                exact ⟨k + 1, by simpa [cutStep] using block, by rw [offset_begin_succ, starts]⟩
              · rintro ⟨k, block, starts⟩
                cases k with
                | zero =>
                    rw [offset_begin_zero] at starts
                    cases starts
                | succ k =>
                    rw [offset_begin_succ] at starts
                    exact ⟨k, by simpa [cutStep] using block, by omega⟩

theorem cut_flagged (code : List Instruction) (flags : List Bool)
    (sized : flags.length = code.length) (first : flags[0]? = some true) :
    (cutPairs (code.zip flags)).1 = [] ∧ cut code flags = (cutPairs (code.zip flags)).2 := by
  have snd : (code.zip flags).map Prod.snd = flags := List.map_snd_zip (by omega)
  have inside : 0 < flags.length := (List.getElem?_eq_some_iff.mp first).1
  have one : begun ((code.zip flags).map Prod.snd) 0 ≠ 0 := by
    rw [snd]
    cases flags with
    | nil => cases first
    | cons flag flags =>
        obtain rfl : flag = true := by simpa using first
        simp [begun_cons_zero]
  have none : (cutPairs (code.zip flags)).1 = [] := by
    rw [Ne, begun_zero_iff _ 0 (by simp; omega)] at one
    exact List.length_eq_zero_iff.mp (by omega)
  exact ⟨none, by rw [cut_eq, none]; rfl⟩

end Cut

section Indices

-- The indices of the blocks that positions belong to, `started` blocks having begun before.
def indicesFrom (started : Nat) : List Bool → List Nat
  | [] => []
  | flag :: flags =>
      let started := if flag then started + 1 else started
      (started - 1) :: indicesFrom started flags

theorem foldl_indices (flags : List Bool) (indices : Array Nat) (started : Nat) :
    ((flags.foldl (fun (indices, started) starts =>
      let started := if starts then started + 1 else started
      (indices.push (started - 1), started)) (indices, started)).1).toList =
        indices.toList ++ indicesFrom started flags := by
  induction flags generalizing indices started with
  | nil => simp [indicesFrom]
  | cons flag flags ih =>
      rw [List.foldl_cons, ih, indicesFrom]
      simp

theorem get_elem?_indices_from (flags : List Bool) (started p : Nat) (inside : p < flags.length) :
    (indicesFrom started flags)[p]? = some (started + begun flags p - 1) := by
  induction flags generalizing started p with
  | nil => cases inside
  | cons flag flags ih =>
      cases p with
      | zero =>
          rw [indicesFrom, begun_cons_zero]
          cases flag <;> rfl
      | succ p =>
          rw [indicesFrom, begun_cons_succ, List.getElem?_cons_succ, ih _ p (by simpa using inside)]
          cases flag
          · rfl
          · simp only [if_true]
            congr 1
            omega

theorem get_d_block_indices (flags : List Bool) (p : Nat) (inside : p < flags.length) :
    (blockIndices flags).getD p 0 = begun flags p - 1 := by
  have read := get_elem?_indices_from flags 0 p inside
  have list : (blockIndices flags).toList = indicesFrom 0 flags := by
    exact (foldl_indices flags #[] 0).trans (List.nil_append _)
  rw [← list, Array.getElem?_toList, Nat.zero_add] at read
  rw [Array.getD_eq_getD_getElem?, read, Option.getD_some]

end Indices

section Starts

theorem size_start_flags (size : Nat) (starts : List Nat) : (startFlags size starts).size = size := by
  have general : ∀ flags : Array Bool, (starts.foldl (fun flags position =>
      flags.setIfInBounds position true) flags).size = flags.size := by
    induction starts with
    | nil => exact fun _ => rfl
    | cons start starts ih => exact fun flags => (ih _).trans (Array.size_setIfInBounds ..)
  rw [startFlags, general, Array.size_replicate]

theorem get_elem?_start_flags (size : Nat) (starts : List Nat) (p : Nat) :
    (startFlags size starts)[p]? = some true ↔ p < size ∧ p ∈ starts := by
  have general : ∀ flags : Array Bool, (starts.foldl (fun flags position =>
      flags.setIfInBounds position true) flags)[p]? = some true ↔
        flags[p]? = some true ∨ (p < flags.size ∧ p ∈ starts) := by
    induction starts with
    | nil => simp
    | cons start starts ih =>
        intro flags
        rw [List.foldl_cons, ih, Array.getElem?_setIfInBounds, Array.size_setIfInBounds,
          List.mem_cons]
        by_cases same : start = p
        · subst same
          by_cases inside : start < flags.size <;> simp [inside]
        · simp [same, Ne.symm same]
  rw [startFlags, general]
  simp [Array.getElem?_replicate]

-- Control does not run on behind the instruction as it does behind others.
def Ends (i : Instruction) : Prop := i.targets ≠ [] ∨ i.opcode.isExit = true

theorem mem_named (labels : List (LabelId × Nat)) (names : List LabelId) (x : Nat) :
    x ∈ (names.filterMap fun name => labels.lookup name) ↔
      ∃ label ∈ names, labels.lookup label = some x := List.mem_filterMap

def startsStep (labels : List (LabelId × Nat)) (seen : List Nat × Nat) (i : Instruction) :
    List Nat × Nat :=
  if !i.targets.isEmpty then
    ((i.targets.filterMap fun name => labels.lookup name) ++ (seen.2 + 1) :: seen.1, seen.2 + 1)
  else if i.opcode.isExit then ((seen.2 + 1) :: seen.1, seen.2 + 1)
  else (seen.1, seen.2 + 1)

theorem starts_step_snd (labels : List (LabelId × Nat)) (seen : List Nat × Nat) (i : Instruction) :
    (startsStep labels seen i).2 = seen.2 + 1 := by
  unfold startsStep
  split
  · rfl
  · split <;> rfl

theorem mem_starts_step (labels : List (LabelId × Nat)) (seen : List Nat × Nat) (i : Instruction)
    (x : Nat) : x ∈ (startsStep labels seen i).1 ↔ x ∈ seen.1 ∨ (Ends i ∧ x = seen.2 + 1) ∨
      ∃ label ∈ i.targets, labels.lookup label = some x := by
  unfold startsStep Ends
  by_cases none : i.targets = []
  · by_cases exits : i.opcode.isExit = true
    · simp [none, exits, or_comm]
    · simp [none, exits]
  · rw [if_pos (by simpa using none)]
    simp only [List.mem_append, mem_named, List.mem_cons, ne_eq, none, not_false_eq_true, true_or,
      true_and, or_assoc, or_comm]

theorem mem_foldl_starts (labels : List (LabelId × Nat)) (code : List Instruction)
    (seen : List Nat × Nat) (x : Nat) : x ∈ (code.foldl (startsStep labels) seen).1 ↔
      x ∈ seen.1 ∨ (∃ p i, code[p]? = some i ∧ Ends i ∧ x = seen.2 + p + 1) ∨
        ∃ i ∈ code, ∃ label ∈ i.targets, labels.lookup label = some x := by
  induction code generalizing seen with
  | nil => simp
  | cons i code ih =>
      rw [List.foldl_cons, ih, mem_starts_step, starts_step_snd]
      constructor
      · rintro ((before | here | named) | ⟨p, j, at_, ends, rfl⟩ | ⟨j, member, named⟩)
        · exact Or.inl before
        · exact Or.inr (Or.inl ⟨0, i, rfl, here.1, here.2⟩)
        · exact Or.inr (Or.inr ⟨i, List.mem_cons_self, named⟩)
        · exact Or.inr (Or.inl ⟨p + 1, j, at_, ends, by omega⟩)
        · exact Or.inr (Or.inr ⟨j, List.mem_cons_of_mem _ member, named⟩)
      · rintro (before | ⟨p, j, at_, ends, rfl⟩ | ⟨j, member, named⟩)
        · exact Or.inl (Or.inl before)
        · cases p with
          | zero =>
              cases at_
              exact Or.inl (Or.inr (Or.inl ⟨ends, rfl⟩))
          | succ p => exact Or.inr (Or.inl ⟨p, j, at_, ends, by omega⟩)
        · rcases List.mem_cons.mp member with rfl | later
          · exact Or.inl (Or.inr (Or.inr named))
          · exact Or.inr (Or.inr ⟨j, later, named⟩)

theorem block_starts_eq (code : List Instruction) (labels : List (LabelId × Nat))
    (ranges : List TryRange) : blockStarts code labels ranges =
      (ranges.flatMap fun range => [range.start, range.stop, range.handler].filterMap fun name =>
        labels.lookup name) ++ (code.foldl (startsStep labels) ([0], 0)).1 := rfl

theorem mem_block_starts (code : List Instruction) (labels : List (LabelId × Nat))
    (ranges : List TryRange) (x : Nat) : x ∈ blockStarts code labels ranges ↔
      x = 0 ∨ (∃ p i, code[p]? = some i ∧ Ends i ∧ x = p + 1) ∨
      (∃ i ∈ code, ∃ label ∈ i.targets, labels.lookup label = some x) ∨
      ∃ range ∈ ranges, ∃ label ∈ [range.start, range.stop, range.handler],
        labels.lookup label = some x := by
  rw [block_starts_eq, List.mem_append, mem_foldl_starts, List.mem_flatMap]
  simp only [mem_named, List.mem_singleton, Nat.zero_add, or_assoc, or_comm, or_left_comm]

end Starts

section Graph

variable (code : List Instruction) (ranges : List TryRange) (trace : List Transfer)

-- A block starts at the position.
structure Starts (position : Nat) : Prop where
  inside : position < code.length
  reason : position = 0 ∨ (∃ p i, code[p]? = some i ∧ Ends i ∧ position = p + 1) ∨
    (∃ i ∈ code, ∃ label ∈ i.targets, Stands code label position) ∨
    ∃ range ∈ ranges, ∃ label ∈ [range.start, range.stop, range.handler], Stands code label position

def flags : Array Bool := startFlags code.length (blockStarts code (labelTable code) ranges)

def blockOf (position : Nat) : Nat := (blockIndices (flags code ranges).toList).getD position 0

theorem flags_iff (position : Nat) :
    (flags code ranges)[position]? = some true ↔ Starts code ranges position := by
  rw [flags, get_elem?_start_flags, mem_block_starts]
  simp only [lookup_iff_stands]
  exact ⟨fun given => ⟨given.1, given.2⟩, fun starts => ⟨starts.inside, starts.reason⟩⟩

theorem length_flags : (flags code ranges).toList.length = code.length :=
  size_start_flags code.length _

theorem zip_flags : (code.zip (flags code ranges).toList).map Prod.snd = (flags code ranges).toList :=
  List.map_snd_zip (Nat.le_of_eq (length_flags code ranges))

theorem graph_blocks : (graph code ranges trace).blocks =
    (cut code (flags code ranges).toList).mapIdx fun index instructions => ⟨⟨index⟩, instructions⟩ := rfl

theorem graph_instructions : (graph code ranges trace).blocks.map Block.instructions =
    cut code (flags code ranges).toList := by
  rw [graph_blocks]
  refine List.ext_getElem? fun k => ?_
  rw [List.getElem?_map, List.getElem?_mapIdx, Option.map_map]
  exact Option.map_id'

theorem block_numbered (k : Nat) (block : Block)
    (at_ : (graph code ranges trace).blocks[k]? = some block) : block.id = ⟨k⟩ := by
  rw [graph_blocks, List.getElem?_mapIdx] at at_
  obtain ⟨instructions, _, rfl⟩ := Option.map_eq_some_iff.mp at_
  rfl

variable {code} (nonempty : code ≠ [])

include nonempty

theorem flags_first : (flags code ranges).toList[0]? = some true := by
  rw [Array.getElem?_toList, flags_iff]
  exact ⟨List.length_pos_iff.mpr nonempty, Or.inl rfl⟩

theorem cut_flags : (cutPairs (code.zip (flags code ranges).toList)).1 = [] ∧
    cut code (flags code ranges).toList = (cutPairs (code.zip (flags code ranges).toList)).2 :=
  cut_flagged code _ (length_flags code ranges) (flags_first ranges nonempty)

theorem length_blocks : (graph code ranges trace).blocks.length =
    (cutPairs (code.zip (flags code ranges).toList)).2.length := by
  rw [← (cut_flags ranges nonempty).2, ← graph_instructions code ranges trace, List.length_map]

theorem graph_start (k : Nat) : (graph code ranges trace).start k =
    offset (cutPairs (code.zip (flags code ranges).toList)) k := by
  rw [Graph.start_eq, graph_instructions, (cut_flags ranges nonempty).2, offset,
    (cut_flags ranges nonempty).1, List.length_nil, Nat.zero_add]

theorem graph_flat_map : (graph code ranges trace).blocks.flatMap Block.instructions =
    code.map (·.id) := by
  have all := cut_pairs_flatten (code.zip (flags code ranges).toList)
  rw [(cut_flags ranges nonempty).1, List.nil_append, ← (cut_flags ranges nonempty).2,
    ← graph_instructions code ranges trace] at all
  rw [List.flatMap_def, all]
  have fst : (code.zip (flags code ranges).toList).map Prod.fst = code :=
    List.map_fst_zip (Nat.le_of_eq (length_flags code ranges).symm)
  exact (List.map_map (g := Instruction.id) (f := Prod.fst)).symm.trans (congrArg _ fst)

theorem block_nonempty (block : Block) (member : block ∈ (graph code ranges trace).blocks) :
    block.instructions ≠ [] := by
  refine cut_pairs_nonempty (code.zip (flags code ranges).toList) block.instructions ?_
  rw [← (cut_flags ranges nonempty).2, ← graph_instructions code ranges trace]
  exact List.mem_map_of_mem member

theorem start_length : (graph code ranges trace).start (graph code ranges trace).blocks.length =
    code.length := by
  have all := congrArg List.length (graph_flat_map ranges trace nonempty)
  rw [List.length_flatMap, List.length_map] at all
  rw [Graph.start, List.take_length]
  exact all

theorem holds_iff (k position : Nat) : (graph code ranges trace).Holds k position ↔
    position < code.length ∧ begun (flags code ranges).toList position = k + 1 := by
  have counted := fun inside => begun_iff (code.zip (flags code ranges).toList) position k inside
  rw [zip_flags, ← graph_start ranges trace nonempty, ← graph_start ranges trace nonempty,
    ← length_blocks ranges trace nonempty, List.length_zip, length_flags, Nat.min_self] at counted
  constructor
  · intro holds
    have last := (graph code ranges trace).start_mono holds.block
    rw [start_length ranges trace nonempty] at last
    have inside : position < code.length := Nat.lt_of_lt_of_le holds.back last
    exact ⟨inside, (counted inside).mpr ⟨holds.block, holds.front, holds.back⟩⟩
  · rintro ⟨inside, count⟩
    obtain ⟨block, front, back⟩ := (counted inside).mp count
    exact ⟨block, front, back⟩

theorem holds_block_of (position : Nat) (inside : position < code.length) :
    (graph code ranges trace).Holds (blockOf code ranges position) position := by
  rw [holds_iff ranges trace nonempty]
  refine ⟨inside, ?_⟩
  rw [blockOf, get_d_block_indices _ _ (by rwa [length_flags])]
  have first := flags_first ranges nonempty
  have some_ : 0 < begun (flags code ranges).toList position := by
    refine List.count_pos_iff.mpr (List.mem_of_getElem? (i := 0) ?_)
    rw [List.getElem?_take_of_lt (Nat.succ_pos position), first]
  omega

theorem starts_iff (position : Nat) : Starts code ranges position ↔
    ∃ k < (graph code ranges trace).blocks.length, (graph code ranges trace).start k = position := by
  have flagged := flag_iff (code.zip (flags code ranges).toList) position
  rw [zip_flags, Array.getElem?_toList, flags_iff, ← length_blocks ranges trace nonempty] at flagged
  simp only [graph_start ranges trace nonempty]
  exact flagged

theorem holds_start (k : Nat) (block : k < (graph code ranges trace).blocks.length) :
    (graph code ranges trace).First k ((graph code ranges trace).start k) := by
  refine ⟨⟨block, Nat.le_refl _, ?_⟩, rfl⟩
  have some_ := block_nonempty ranges trace nonempty _ (List.getElem_mem block)
  rw [Graph.start_succ, List.getElem?_eq_getElem block]
  exact Nat.lt_add_of_pos_right (List.length_pos_iff.mpr some_)

theorem first_iff (k position : Nat) : (graph code ranges trace).First k position ↔
    (graph code ranges trace).Holds k position ∧ Starts code ranges position := by
  constructor
  · rintro ⟨holds, starts⟩
    exact ⟨holds, (starts_iff ranges trace nonempty position).mpr ⟨k, holds.block, starts⟩⟩
  · rintro ⟨holds, starts⟩
    obtain ⟨k', block, rfl⟩ := (starts_iff ranges trace nonempty position).mp starts
    have first := holds_start ranges trace nonempty k' block
    rwa [holds.unique first.holds]

theorem last_iff (k position : Nat) : (graph code ranges trace).Last k position ↔
    (graph code ranges trace).Holds k position ∧
      (position + 1 = code.length ∨ Starts code ranges (position + 1)) := by
  have within : ∀ j, j ≤ (graph code ranges trace).blocks.length →
      (graph code ranges trace).start j ≤ code.length := fun j le =>
    start_length ranges trace nonempty ▸ (graph code ranges trace).start_mono le
  constructor
  · rintro ⟨holds, ends⟩
    refine ⟨holds, ?_⟩
    rcases Nat.lt_or_ge (k + 1) (graph code ranges trace).blocks.length with more | done
    · exact Or.inr ((starts_iff ranges trace nonempty _).mpr ⟨k + 1, more, ends⟩)
    · have all := start_length ranges trace nonempty
      rw [Nat.le_antisymm done holds.block, ends] at all
      exact Or.inl all
  · rintro ⟨holds, ends⟩
    refine ⟨holds, ?_⟩
    have back := holds.back
    have front := holds.front
    rcases ends with all | starts
    · have := within (k + 1) holds.block
      omega
    · by_contra more
      have inner : (graph code ranges trace).Holds k (position + 1) :=
        ⟨holds.block, by omega, by omega⟩
      have := ((first_iff ranges trace nonempty k (position + 1)).mpr ⟨inner, starts⟩).starts
      omega

end Graph

end Flow

end JvmEdit
