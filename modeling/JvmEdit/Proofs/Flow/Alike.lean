import JvmEdit.Flow.Blocks
import JvmEdit.Load.Builder
import JvmEdit.Proofs.Data.Except
import Mathlib.Data.List.Forall2
set_option autoImplicit false

namespace JvmEdit

-- What is left of an operand when it is not looked at what it names.
def Operand.outline : Operand → Operand
  | .constant _ | .field _ | .call _ | .dynamicCall _ | .type _ | .multiArray .. => .int 0
  | operand => operand

def Instruction.outline (i : Instruction) : Instruction := { i with operand := i.operand.outline }

def TryRange.outline (t : TryRange) : TryRange := { t with catchType := none }

-- Another text in the place of a descriptor that does not read.
def FlowError.mapText (g : String → String) : FlowError → FlowError
  | .descriptor position text => .descriptor position (g text)
  | e => e

def Flow.Analysis.mapText (g : String → String) (a : Flow.Analysis) : Flow.Analysis :=
  ⟨a.trace, a.result.mapError (FlowError.mapText g)⟩

section Alike

variable [Libraries] (g : String → String)

-- The instructions are the same but for what they name, and so are their effects on the stack, up to
-- the text of a descriptor that does not read.
structure Instruction.Alike (i i' : Instruction) : Prop where
  outline : i'.outline = i.outline
  effect : Flow.effect i'.opcode i'.operand =
    (Flow.effect i.opcode i.operand).mapError g

structure Method.Alike (m m' : Method) : Prop where
  code : List.Forall₂ (Instruction.Alike g) m.code.toList m'.code.toList
  ranges : m'.tryRanges.map TryRange.outline = m.tryRanges.map TryRange.outline
  limit : m'.maxStack = m.maxStack

end Alike

namespace Instruction

@[simp] theorem id_outline (i : Instruction) : i.outline.id = i.id := rfl

@[simp] theorem opcode_outline (i : Instruction) : i.outline.opcode = i.opcode := rfl

@[simp] theorem label?_outline (i : Instruction) : i.outline.label? = i.label? := by
  obtain ⟨_, _, operand⟩ := i
  cases operand <;> rfl

@[simp] theorem targets_outline (i : Instruction) : i.outline.targets = i.targets := by
  obtain ⟨_, _, operand⟩ := i
  cases operand <;> rfl

@[simp] theorem slot_of?_outline (i : Instruction) :
    LocalVariable.slotOf? i.opcode i.outline.operand = LocalVariable.slotOf? i.opcode i.operand := by
  obtain ⟨_, _, operand⟩ := i
  cases operand <;> rfl

end Instruction

namespace Flow

-- What the derived data of a body see of its code.
section Outline

variable (code : List Instruction) (ranges : List TryRange)

theorem label_table_outline : labelTable (code.map Instruction.outline) = labelTable code := by
  simp only [labelTable, List.foldl_map, Instruction.label?_outline]

theorem block_starts_outline (labels : List (LabelId × Nat)) :
    blockStarts (code.map Instruction.outline) labels (ranges.map TryRange.outline) =
      blockStarts code labels ranges := by
  simp only [blockStarts, List.foldl_map, List.flatMap_map, Instruction.targets_outline,
    Instruction.opcode_outline]
  rfl

theorem cut_outline (flags : List Bool) : cut (code.map Instruction.outline) flags = cut code flags := by
  simp only [cut, List.zip_map_left, List.foldr_map]
  rfl

theorem branches_outline (labels : List (LabelId × Nat)) (position target : Nat) :
    branches (code.map Instruction.outline).toArray labels position target =
      branches code.toArray labels position target := by
  simp only [branches, List.getElem?_toArray, List.getElem?_map]
  cases code[position]? with
  | none => rfl
  | some i => simp

theorem graph_outline (trace : List Transfer) :
    graph (code.map Instruction.outline) (ranges.map TryRange.outline) trace =
      graph code ranges trace := by
  have ids : ∀ position : Nat, (code.map Instruction.outline)[position]?.map (·.id) =
      code[position]?.map (·.id) := by
    intro position
    rw [List.getElem?_map, Option.map_map]
    rfl
  simp only [graph, label_table_outline, block_starts_outline, cut_outline, branches_outline,
    List.size_toArray, List.length_map, List.getElem?_toArray, ids]

theorem handlers_outline (labels : List (LabelId × Nat)) :
    handlers labels (ranges.map TryRange.outline) = handlers labels ranges := by
  simp only [handlers, List.mapM_map]
  rfl

theorem handlers_map_text {g : String → String} (labels : List (LabelId × Nat)) :
    (handlers labels ranges).mapError (FlowError.mapText g) = handlers labels ranges := by
  apply map_error_map_m_same
  intro range
  split <;> rfl

theorem scope_outline (start stop : LabelId) :
    LocalVariable.scope ⟨code.map Instruction.outline⟩ start stop =
      (LocalVariable.scope ⟨code⟩ start stop).map Instruction.outline := by
  have positions : ∀ label, (Stream.mk (code.map Instruction.outline)).labelPosition? label =
      (Stream.mk code).labelPosition? label := by
    intro label
    simp only [Stream.labelPosition?, List.findIdx?_map, Function.comp_def,
      Instruction.label?_outline]
  simp only [LocalVariable.scope, positions]
  split
  · rw [List.map_drop, List.map_take]
  · rfl

theorem collect_outline (v : LocalVariable) :
    LocalVariable.collect ⟨code.map Instruction.outline⟩ v = LocalVariable.collect ⟨code⟩ v := by
  simp only [LocalVariable.collect, scope_outline, List.filter_map, List.map_map, Function.comp_def,
    Instruction.opcode_outline, Instruction.slot_of?_outline, Instruction.id_outline]

end Outline

-- The moves from an instruction other than those to its handlers.
def Body.ordinary [Libraries] (b : Body) (position height : Nat) (i : Instruction) :
    Except FlowError (List Move) := do
  let after ← b.heightAfter position height i
  let successors ← b.successors position height after i
  return successors.map fun (target, height) => ⟨.flow position target, height⟩

theorem successors_outline (b : Body) (position height after : Nat) (i : Instruction) :
    b.successors position height after i.outline = b.successors position height after i := by
  obtain ⟨_, _, operand⟩ := i
  cases operand <;> rfl

section Heights

variable [Libraries] (g : String → String)

-- Bodies in which control can go the same ways.
structure Body.Alike (b b' : Body) : Prop where
  size : b'.size = b.size
  labels : b'.labels = b.labels
  handlers : b'.handlers = b.handlers
  limit : b'.limit = b.limit
  code : ∀ (position : Nat) i i', b.code[position]? = some i → b'.code[position]? = some i' →
    Instruction.Alike g i i'

variable {g} {b b' : Body} (alike : b.Alike g b')

include alike

theorem height_after_alike (position height : Nat) (i i' : Instruction) (same : i.Alike g i') :
    b'.heightAfter position height i' =
      (b.heightAfter position height i).mapError (FlowError.mapText g) := by
  rw [Body.heightAfter, Body.heightAfter, same.effect, alike.limit]
  cases Flow.effect i.opcode i.operand with
  | error text => rfl
  | ok slots =>
      obtain ⟨pops, pushes⟩ := slots
      simp only [Except.mapError]
      split
      · rfl
      · cases b.limit with
        | none => rfl
        | some limit =>
            dsimp only
            split <;> rfl

theorem successors_alike (position height after : Nat) (i i' : Instruction)
    (same : i.Alike g i') :
    b'.successors position height after i' = b.successors position height after i := by
  have positions : b'.position = b.position := by
    funext source label
    rw [Body.position, Body.position, Body.position?, Body.position?, alike.labels]
  have nexts : b'.next = b.next := by
    funext position
    rw [Body.next, Body.next, alike.size]
  rw [← successors_outline b', same.outline, successors_outline]
  simp only [Body.successors, positions, nexts]

omit [Libraries] alike in
theorem successors_map_text (b : Body) (position height after : Nat) (i : Instruction) :
    (b.successors position height after i).mapError (FlowError.mapText g) =
      b.successors position height after i := by
  have positions : ∀ label,
      (b.position position label).mapError (FlowError.mapText g) = b.position position label := by
    intro label
    rw [Body.position]
    split <;> rfl
  have nexts : (b.next position).mapError (FlowError.mapText g) = b.next position := by
    rw [Body.next]
    split <;> rfl
  unfold Body.successors
  split
  · split
    · exact map_error_bind_same _ _ _ (positions _) fun _ => map_error_bind_same _ _ _ nexts fun _ => rfl
    · split
      · exact map_error_bind_same _ _ _ (positions _) fun _ => rfl
      · exact map_error_bind_same _ _ _ (positions _) fun _ =>
          map_error_bind_same _ _ _ nexts fun _ => rfl
  · exact map_error_bind_same _ _ _ (map_error_map_m_same _ _ positions _) fun _ => rfl
  · split
    · rfl
    · exact map_error_bind_same _ _ _ nexts fun _ => rfl

theorem ordinary_alike (position height : Nat) (i i' : Instruction)
    (same : i.Alike g i') : b'.ordinary position height i' =
      (b.ordinary position height i).mapError (FlowError.mapText g) := by
  rw [Body.ordinary, Body.ordinary, map_error_bind,
    height_after_alike alike position height i i' same]
  refine congrArg (_ >>= ·) (funext fun after => ?_)
  rw [map_error_bind, successors_map_text, successors_alike alike position height after i i' same]
  rfl

theorem moves_alike (position height : Nat) (i i' : Instruction) (same : i.Alike g i') :
    b'.moves position height i' =
      ((b.moves position height i).1,
        (b.moves position height i).2.map (FlowError.mapText g)) := by
  have entries : b'.handlerEntries position = b.handlerEntries position := by
    rw [Body.handlerEntries, Body.handlerEntries, alike.handlers]
  have ordinary := ordinary_alike alike position height i i' same
  simp only [Body.ordinary] at ordinary
  rw [Body.moves, Body.moves, entries]
  dsimp only
  rw [ordinary]
  cases (do
    let after ← b.heightAfter position height i
    let successors ← b.successors position height after i
    return successors.map fun (target, height) => (⟨.flow position target, height⟩ : Move) :
      Except FlowError (List Move)) <;> rfl

omit [Libraries] alike in
theorem follow_map_text (w : Walk) (moves : List Move) :
    (w.follow moves).2.map (FlowError.mapText g) = (w.follow moves).2 := by
  induction moves generalizing w with
  | nil => rfl
  | cons move moves ih =>
      rw [Walk.follow]
      split
      · exact ih _
      · rename_i w' e arrived
        have fault := congrArg Prod.snd arrived
        rw [Walk.arrive] at fault
        split at fault
        · cases fault
        · split at fault
          · cases fault
          · cases fault
            rfl
        · cases fault

theorem visit_alike (w : Walk) (position : Nat) :
    Walk.visit b' w position =
      ((Walk.visit b w position).1,
        (Walk.visit b w position).2.map (FlowError.mapText g)) := by
  rw [Walk.visit, Walk.visit]
  cases (w.heights[position]?).join with
  | none => rfl
  | some height =>
      cases found : b.code[position]? with
      | none =>
          have size : b'.code.size = b.code.size := alike.size
          have found' : b'.code[position]? = none := by
            rw [Array.getElem?_eq_none_iff] at found ⊢
            omega
          rw [found']
          rfl
      | some i =>
          have size : b'.code.size = b.code.size := alike.size
          obtain ⟨i', found'⟩ : ∃ i', b'.code[position]? = some i' := by
            obtain ⟨inside, _⟩ := Array.getElem?_eq_some_iff.mp found
            exact ⟨_, Array.getElem?_eq_getElem (size ▸ inside)⟩
          have moves := moves_alike alike position height i i' (alike.code position i i' found found')
          rw [found']
          dsimp only
          rw [moves]
          dsimp only
          have fixed := follow_map_text (g := g) w (b.moves position height i).1
          rcases followed : w.follow (b.moves position height i).1 with ⟨w', _ | e⟩
          · rfl
          · rw [followed] at fixed
            exact congrArg (Prod.mk w') fixed.symm

theorem run_alike (visits : Nat) (w : Walk) :
    Walk.run b' visits w =
      ((Walk.run b visits w).1,
        (Walk.run b visits w).2.map (FlowError.mapText g)) := by
  induction visits generalizing w with
  | zero => rfl
  | succ visits ih =>
      rw [Walk.run, Walk.run]
      split
      · rfl
      · rw [visit_alike alike]
        rcases Walk.visit b _ _ with ⟨w', _ | e⟩
        · exact ih w'
        · rfl

theorem Body.analyse_alike : b'.analyse = (b.analyse).mapText g := by
  have start : b'.start = b.start := by rw [Body.start, Body.start, alike.size]
  rw [Body.analyse, Body.analyse, start, alike.size, run_alike alike]
  rcases Walk.run b b.size b.start with ⟨w, _ | e⟩ <;> rfl

end Heights

end Flow

namespace Method

variable [Libraries] {g : String → String} {m m' : Method} (alike : m.Alike g m')

include alike

theorem outlines_alike :
    m'.code.toList.map Instruction.outline = m.code.toList.map Instruction.outline := by
  have rows := alike.code
  generalize m.code.toList = code at rows ⊢
  generalize m'.code.toList = code' at rows ⊢
  induction rows with
  | nil => rfl
  | cons same _ ih => rw [List.map_cons, List.map_cons, same.outline, ih]

theorem is_empty_alike : m'.code.isEmpty = m.code.isEmpty := by
  rw [Bool.eq_iff_iff, Stream.isEmpty, Stream.isEmpty, List.isEmpty_iff_length_eq_zero,
    List.isEmpty_iff_length_eq_zero, alike.code.length_eq]

theorem analyse_alike : m'.analyse = (m.analyse).mapText g := by
  have outlines := outlines_alike alike
  have table : Flow.labelTable m'.code.toList = Flow.labelTable m.code.toList := by
    rw [← Flow.label_table_outline, outlines, Flow.label_table_outline]
  have resolved : Flow.handlers (Flow.labelTable m.code.toList) m'.tryRanges =
      Flow.handlers (Flow.labelTable m.code.toList) m.tryRanges := by
    rw [← Flow.handlers_outline, alike.ranges, Flow.handlers_outline]
  simp only [analyse, Flow.analyse, is_empty_alike alike, table, resolved, alike.limit]
  split
  · rfl
  · have fixed := Flow.handlers_map_text (g := g) m.tryRanges (Flow.labelTable m.code.toList)
    cases found : Flow.handlers (Flow.labelTable m.code.toList) m.tryRanges with
    | error e =>
        rw [found] at fixed
        have same : e.mapText g = e := Except.error.inj fixed
        exact congrArg (fun e => Flow.Analysis.mk [] (.error e)) same.symm
    | ok handlers =>
        apply Flow.Body.analyse_alike
        have rows := List.forall₂_iff_get.mp alike.code
        refine ⟨rows.1.symm, rfl, rfl, rfl, fun position i i' found found' => ?_⟩
        obtain ⟨inside, rfl⟩ := Array.getElem?_eq_some_iff.mp found
        obtain ⟨inside', rfl⟩ := Array.getElem?_eq_some_iff.mp found'
        exact rows.2 position inside inside'

theorem build_graph_alike : m'.buildGraph =
    ((m.buildGraph).1, (m.buildGraph).2.map (FlowError.mapText g)) := by
  have graphs : ∀ trace, Flow.graph m'.code.toList m'.tryRanges trace =
      Flow.graph m.code.toList m.tryRanges trace := by
    intro trace
    rw [← Flow.graph_outline, outlines_alike alike, alike.ranges, Flow.graph_outline]
  simp only [buildGraph, is_empty_alike alike, analyse_alike alike, Flow.Analysis.mapText,
    graphs]
  split
  · rfl
  · cases (m.analyse).result <;> rfl

theorem collect_alike (v : LocalVariable) :
    LocalVariable.collect m'.code v = LocalVariable.collect m.code v := by
  rw [← Flow.collect_outline m'.code.toList v, outlines_alike alike]
  exact Flow.collect_outline m.code.toList v

end Method

end JvmEdit
