import JvmEdit.Proofs.ClassFile.RoundTrip
import JvmEdit.Proofs.Flow.Expansion
import JvmEdit.Proofs.Program.Bodies
set_option autoImplicit false

namespace JvmEdit

namespace Assembler

open JvmEdit.Flow (Acts effect)

-- A line as an instruction.
def Line.instruction (line : Line) : Instruction := ⟨⟨0⟩, line.opcode, line.operand⟩

-- An instruction of a plan, whose labels are places.
def planned (r : Opcode × Operand) : Instruction := ⟨⟨0⟩, r.1, r.2⟩

theorem aims_targets (line : Line) : ∀ label ∈ line.aims, label ∈ line.operand.targets := by
  obtain ⟨op, operand, index⟩ := line
  intro label member
  cases operand with
  | switch otherwise cases =>
      refine (List.mem_cons.mp member).elim (fun same => same ▸ List.mem_cons_self ..) fun member => ?_
      obtain ⟨c, written, rfl⟩ := List.mem_map.mp member
      by_cases isTable : op = Opcode.tableSwitch
      · rw [isTable] at written
        rw [table_entry otherwise cases c written]
        cases found : cases.lookup c.1 with
        | none => exact List.mem_cons_self ..
        | some label =>
            obtain ⟨before, after, split, _⟩ := List.lookup_eq_some_iff.mp found
            refine List.mem_cons_of_mem _ (List.mem_map.mpr ⟨(c.1, label), ?_, rfl⟩)
            rw [split]
            exact List.mem_append_right _ (List.mem_cons_self ..)
      · obtain ⟨permuted, _⟩ := (rewritten_cases op otherwise cases).sorted isTable
        exact List.mem_cons_of_mem _ (List.mem_map_of_mem (permuted.mem_iff.mp written))
  | _ => exact member

theorem branch_codes (op : Opcode) (short : Code.isShortBranch op = true) (notGoto : op ≠ Opcode.goto)
    (notJsr : op ≠ Opcode.jsr) : op.isUnconditionalBranch = false ∧ op.isSubroutineCall = false ∧
      (opposite op).stackEffect = op.stackEffect ∧ (opposite op).isSubroutineCall = false := by
  have all := Opcode.forall_of_all (fun op => !Code.isShortBranch op || op == Opcode.goto ||
    op == Opcode.jsr || (!op.isUnconditionalBranch && !op.isSubroutineCall &&
      (opposite op).stackEffect == op.stackEffect && !(opposite op).isSubroutineCall)) (by decide +kernel) op
  have notGoto := beq_false_of_ne notGoto
  have notJsr := beq_false_of_ne notJsr
  simp only [short, notGoto, notJsr, Bool.not_true, Bool.false_or, Bool.and_eq_true, Bool.not_eq_true',
    beq_iff_eq] at all
  exact ⟨all.1.1.1, all.1.1.2, all.1.2, all.2⟩

theorem wide_codes : Opcode.gotoW.stackEffect = Opcode.goto.stackEffect ∧
    Opcode.jsrW.stackEffect = Opcode.jsr.stackEffect := by decide +kernel

theorem load_codes (index : UInt16) (value : Constant) : (loadOpcode index value).isExit = false := by
  unfold loadOpcode
  split
  · rfl
  · split <;> rfl

section Rebuilt

variable (place : LabelId → LabelId) (before : Nat)

-- The line is written as an instruction that does the same.
structure Line.Plain [Libraries] (line : Line) (isFar : Bool) (r : Opcode × Operand) : Prop where
  rebuilt : line.rebuilt place before isFar = [r]
  width : line.width isFar = 1
  acts : Acts line.instruction (planned r)
  aims : r.2.targets = line.aims.map place

-- The line is a conditional branch, written as a hop over one that is always taken.
structure Line.Hops (line : Line) (label : LabelId) : Prop where
  jump : line.operand = .jump label
  rebuilt : line.rebuilt place before true =
    [(opposite line.opcode, .jump ⟨before + 2⟩), (Opcode.gotoW, .jump (place label))]
  width : line.width true = 2
  short : Code.isShortBranch line.opcode = true
  notGoto : line.opcode ≠ Opcode.goto
  notJsr : line.opcode ≠ Opcode.jsr

theorem rebuilt_cases [Libraries] (line : Line) (isFar : Bool)
    (suited : Code.Suited line.opcode line.operand) (real : line.operand.isLabel = false)
    (far : isFar = true → ∃ label, line.operand = .jump label ∧ isWideBranch line.opcode = false) :
    (∃ r, line.Plain place before isFar r) ∨ (isFar = true ∧ ∃ label, line.Hops place before label) := by
  obtain ⟨op, operand, index⟩ := line
  cases operand with
  | label label => cases real
  | constant value =>
      refine Or.inl ⟨_, rfl, rfl, ⟨rfl, ?_, rfl⟩, rfl⟩
      have loads : op.isExit = false := by
        rcases suited with rfl | rfl | rfl <;> rfl
      change (!(loadOpcode index value).isExit) = !op.isExit
      rw [load_codes, loads]
  | switch otherwise cases =>
      exact Or.inl ⟨_, rfl, rfl, ⟨rfl, rfl, rfl⟩, by simp [Operand.targets, Line.aims]⟩
  | jump label =>
      cases isFar with
      | false => exact Or.inl ⟨_, rfl, rfl, ⟨rfl, rfl, rfl⟩, rfl⟩
      | true =>
          obtain ⟨_, _, narrow⟩ := far rfl
          have short : Code.isShortBranch op = true :=
            suited.resolve_right fun wide => Bool.false_ne_true (narrow.symm.trans wide)
          have same : ∀ op op' : Opcode, op'.stackEffect = op.stackEffect →
              effect op' (.jump (place label)) = effect op (.jump label) := by
            intro op op' same
            simp only [effect, same]
          by_cases isGoto : op = Opcode.goto
          · subst isGoto
            have acts := same Opcode.goto Opcode.gotoW wide_codes.1
            exact Or.inl ⟨(Opcode.gotoW, .jump (place label)), rfl, rfl, ⟨acts, rfl, rfl⟩, rfl⟩
          · by_cases isJsr : op = Opcode.jsr
            · subst isJsr
              have acts := same Opcode.jsr Opcode.jsrW wide_codes.2
              exact Or.inl ⟨(Opcode.jsrW, .jump (place label)), rfl, rfl, ⟨acts, rfl, rfl⟩, rfl⟩
            · refine Or.inr ⟨rfl, label, rfl, ?_, ?_, short, isGoto, isJsr⟩
              · simp only [Line.rebuilt, Bool.not_true, if_neg Bool.false_ne_true, if_neg isGoto,
                  if_neg isJsr]
              · simp [Line.width, hasWideForm, isGoto, isJsr]
  | _ => exact Or.inl ⟨_, rfl, rfl, ⟨rfl, rfl, rfl⟩, rfl⟩

theorem length_rebuilt_line (line : Line) (isFar : Bool) :
    (line.rebuilt place before isFar).length = line.width isFar := by
  obtain ⟨op, operand, index⟩ := line
  cases operand with
  | jump label =>
      cases isFar with
      | false => rfl
      | true =>
          by_cases isGoto : op = Opcode.goto
          · subst isGoto
            rfl
          · by_cases isJsr : op = Opcode.jsr
            · subst isJsr
              rfl
            · simp [Line.rebuilt, Line.width, hasWideForm, isGoto, isJsr]
  | _ => rfl

theorem length_rebuilt (lines : List Line) (far : List Bool) :
    (rebuilt place before lines far).length = width lines far := by
  induction lines generalizing before far with
  | nil => rfl
  | cons line lines ih =>
      cases far with
      | nil => rfl
      | cons isFar far => rw [rebuilt, List.length_append, length_rebuilt_line, ih, width]

theorem get_elem?_rebuilt (lines : List Line) (far : List Bool) (p : Nat) (line : Line) (isFar : Bool)
    (here : lines[p]? = some line) (mark : far[p]? = some isFar) (j : Nat) (r : Opcode × Operand)
    (isPart : (line.rebuilt place (before + ordinal lines far p) isFar)[j]? = some r) :
    (rebuilt place before lines far)[ordinal lines far p + j]? = some r := by
  induction lines generalizing before far p with
  | nil => cases here
  | cons first lines ih =>
      cases far with
      | nil => cases mark
      | cons isFarFirst far =>
          cases p with
          | zero =>
              cases here
              cases mark
              rw [ordinal_zero, Nat.add_zero] at isPart
              have inside := (List.getElem?_eq_some_iff.mp isPart).1
              rw [ordinal_zero, Nat.zero_add, rebuilt, List.getElem?_append_left inside]
              exact isPart
          | succ p =>
              have more : ordinal (first :: lines) (isFarFirst :: far) (p + 1) =
                  first.width isFarFirst + ordinal lines far p := rfl
              rw [more, ← Nat.add_assoc] at isPart
              have behind : ordinal (first :: lines) (isFarFirst :: far) (p + 1) + j =
                  (first.rebuilt place before isFarFirst).length + (ordinal lines far p + j) := by
                rw [length_rebuilt_line, more, Nat.add_assoc]
              rw [rebuilt, behind, List.getElem?_append_right (Nat.le_add_right ..), Nat.add_sub_cancel_left]
              exact ih _ far p here mark isPart

end Rebuilt

end Assembler

namespace Operand

theorem label?_map_labels (f : LabelId → LabelId) (o : Operand) : (o.mapLabels f).label? = o.label?.map f := by
  cases o <;> rfl

theorem is_label_map_labels (f : LabelId → LabelId) (o : Operand) : (o.mapLabels f).isLabel = o.isLabel := by
  cases o <;> rfl

end Operand

namespace Code

open JvmEdit.Flow (Marks Stands Acts)
open Assembler (planned)

def labelAt (code : List (Opcode × Operand)) (q : Nat) : Option LabelId := code[q]?.bind (·.2.label?)

def isReal (i : Opcode × Operand) : Bool := !i.2.isLabel

theorem is_real_of_label {i : Opcode × Operand} {label : LabelId} (marker : i.2.label? = some label) :
    isReal i = false := by
  rw [isReal, Operand.isLabel, marker]
  rfl

theorem is_real_of_none {i : Opcode × Operand} (real : i.2.label? = none) : isReal i = true := by
  rw [isReal, Operand.isLabel, real]
  rfl

theorem mem_marks_iff (before : Nat) (code : List (Opcode × Operand)) (label : LabelId) (n : Nat) :
    (label, n) ∈ marks before code ↔
      ∃ q, labelAt code q = some label ∧ n = before + (code.take q).countP isReal := by
  induction code generalizing before with
  | nil => simp [marks, labelAt]
  | cons i code ih =>
      cases found : i.2.label? with
      | some other =>
          have plain := is_real_of_label found
          simp only [marks, found, List.mem_cons, Prod.mk.injEq, ih before]
          constructor
          · rintro (⟨rfl, rfl⟩ | ⟨q, marked, rfl⟩)
            · exact ⟨0, found, rfl⟩
            · exact ⟨q + 1, marked, by rw [List.take_succ_cons, List.countP_cons_of_neg (by simp [plain])]⟩
          · rintro ⟨q, marked, rfl⟩
            cases q with
            | zero => exact Or.inl ⟨Option.some.inj (marked.symm.trans found), rfl⟩
            | succ q =>
                rw [List.take_succ_cons, List.countP_cons_of_neg (by simp [plain])]
                exact Or.inr ⟨q, marked, rfl⟩
      | none =>
          have real := is_real_of_none found
          simp only [marks, found, ih (before + 1)]
          constructor
          · rintro ⟨q, marked, rfl⟩
            refine ⟨q + 1, marked, ?_⟩
            rw [List.take_succ_cons, List.countP_cons_of_pos real]
            omega
          · rintro ⟨q, marked, rfl⟩
            cases q with
            | zero => cases marked.symm.trans found
            | succ q =>
                rw [List.take_succ_cons, List.countP_cons_of_pos real]
                exact ⟨q, marked, by omega⟩

theorem marks_pairwise {relation : LabelId × Nat → LabelId × Nat → Prop} (before : Nat)
    (code : List (Opcode × Operand)) (sorted : (marks before code).Pairwise relation) (q q' : Nat)
    (label label' : LabelId) (marked : labelAt code q = some label) (marked' : labelAt code q' = some label')
    (less : q < q') : relation (label, before + (code.take q).countP isReal)
      (label', before + (code.take q').countP isReal) := by
  induction code generalizing before q q' with
  | nil => cases marked
  | cons i code ih =>
      obtain ⟨k, rfl⟩ : ∃ k, q' = k + 1 := ⟨q' - 1, by omega⟩
      cases found : i.2.label? with
      | some other =>
          have plain : ¬isReal i = true := by simp [is_real_of_label found]
          simp only [marks, found] at sorted
          obtain ⟨first, rest⟩ := List.pairwise_cons.mp sorted
          rw [List.take_succ_cons, List.countP_cons_of_neg plain]
          cases q with
          | zero =>
              cases marked.symm.trans found
              exact first _ ((mem_marks_iff before code _ _).mpr ⟨k, marked', rfl⟩)
          | succ q =>
              rw [List.take_succ_cons, List.countP_cons_of_neg plain]
              exact ih before rest q k marked marked' (Nat.lt_of_succ_lt_succ less)
      | none =>
          have real := is_real_of_none found
          simp only [marks, found] at sorted
          cases q with
          | zero => cases marked.symm.trans found
          | succ q =>
              rw [List.take_succ_cons, List.take_succ_cons, List.countP_cons_of_pos real,
                List.countP_cons_of_pos real]
              have later := ih (before + 1) sorted q k marked marked' (Nat.lt_of_succ_lt_succ less)
              rwa [Nat.add_assoc, Nat.add_assoc, Nat.add_comm 1, Nat.add_comm 1] at later

theorem lookup_rising (table : List (LabelId × Nat))
    (rising : table.Pairwise fun a b => a.1.val < b.1.val ∧ a.2 < b.2) (label : LabelId) (n : Nat)
    (member : (label, n) ∈ table) : table.lookup label = some n := by
  induction table with
  | nil => cases member
  | cons first table ih =>
      obtain ⟨above, rest⟩ := List.pairwise_cons.mp rising
      rcases List.mem_cons.mp member with rfl | later
      · exact List.lookup_cons_self
      · have differs : label ≠ first.1 := by
          rintro rfl
          exact Nat.lt_irrefl _ (above _ later).1
        rw [List.lookup_cons, beq_false_of_ne differs]
        exact ih rest later

theorem get_elem?_filter_count_p {α : Type} (keeps : α → Bool) (items : List α) (q : Nat) (item : α)
    (here : items[q]? = some item) (kept : keeps item = true) :
    (items.filter keeps)[(items.take q).countP keeps]? = some item := by
  induction items generalizing q with
  | nil => cases here
  | cons first items ih =>
      cases q with
      | zero =>
          cases here
          rw [List.filter_cons_of_pos kept]
          rfl
      | succ q =>
          have later := ih q here
          by_cases keepsFirst : keeps first = true
          · rw [List.filter_cons_of_pos keepsFirst, List.take_succ_cons, List.countP_cons_of_pos keepsFirst]
            exact later
          · rw [List.filter_cons_of_neg keepsFirst, List.take_succ_cons, List.countP_cons_of_neg keepsFirst]
            exact later

-- The label stands behind as many instructions as the place says.
def Placed (code : List Instruction) (label place : LabelId) : Prop :=
  ∃ goal, Stands code label goal ∧ Flow.rank code goal = place.val

-- Code and ranges as a plan has them.
structure Realises [Libraries] (code : List Instruction) (ranges : List TryRange) (plan : Plan) :
    Prop where
  total : Flow.rank code code.length = plan.instructions.length
  each : ∀ (q : Nat) (i : Instruction), code[q]? = some i → i.isLabel = false → ∃ r,
    plan.instructions[Flow.rank code q]? = some r ∧ Acts (planned r) i ∧
      ∀ label ∈ i.targets, ∃ place ∈ r.2.targets, Placed code label place
  lone : ∀ (q q' : Nat) (label label' : LabelId), Marks code q label → Marks code q' label' →
    q < q' → Flow.rank code q < Flow.rank code q'
  ranges : ∀ range ∈ ranges, ∃ r ∈ plan.ranges, Placed code range.start r.start ∧
    Placed code range.stop r.stop ∧ Placed code range.handler r.handler

theorem acts_map_labels [Libraries] (i : Instruction) (op : Opcode) (operand : Operand)
    (f g : LabelId → LabelId)
    (isCode : i.opcode = op) (isOperand : i.operand = operand.mapLabels f) :
    Acts (planned (op, operand.mapLabels g)) i := by
  obtain ⟨id, _, _⟩ := i
  cases isCode
  cases isOperand
  cases operand <;> exact ⟨rfl, rfl, rfl⟩

section Loaded

variable {body : Body} {names : LabelId → LabelId} {code : List Instruction} {ranges : List TryRange}

namespace Body.Loads

theorem get_elem?_code (loads : body.Loads names code ranges) (q : Nat) :
    code[q]?.map (fun i => (i.opcode, i.operand)) =
      body.instructions[q]?.map fun i => (i.1, i.2.mapLabels names) := by
  rw [← List.getElem?_map, ← List.getElem?_map, loads.code]

theorem marks_iff (loads : body.Loads names code ranges) (q : Nat) (name : LabelId) :
    Marks code q name ↔ ∃ label, labelAt body.instructions q = some label ∧ names label = name := by
  have same := congrArg (·.bind fun i => i.2.label?) (loads.get_elem?_code q)
  simp only [Option.bind_map, Function.comp_def, Operand.label?_map_labels] at same
  have isMark : code[q]?.bind Instruction.label? = (labelAt body.instructions q).map names := by
    rw [labelAt, Option.map_bind]
    exact same
  rw [Flow.Marks, isMark, Option.map_eq_some_iff]

theorem rank_eq (loads : body.Loads names code ranges) (q : Nat) :
    Flow.rank code q = (body.instructions.take q).countP isReal := by
  have plain : (code.take q).countP (fun i => !i.isLabel) =
      ((code.map fun i => (i.opcode, i.operand)).take q).countP isReal := by
    rw [← List.map_take, List.countP_map]
    rfl
  rw [Flow.rank, plain, loads.code, ← List.map_take, List.countP_map]
  refine List.countP_congr fun i _ => ?_
  rw [Function.comp_apply, isReal, Operand.is_label_map_labels, isReal]

variable (loads : body.Loads names code ranges) (tidy : body.Tidy)
  (numbered : ∀ label n, (label, n) ∈ marks 0 body.instructions → label.val < body.labelCount)

include loads tidy

theorem lone (q q' : Nat) (name name' : LabelId) (marks : Marks code q name) (marks' : Marks code q' name')
    (less : q < q') : Flow.rank code q < Flow.rank code q' := by
  obtain ⟨label, marked, _⟩ := (loads.marks_iff q name).mp marks
  obtain ⟨label', marked', _⟩ := (loads.marks_iff q' name').mp marks'
  have rising := (marks_pairwise 0 _ tidy.rising q q' label label' marked marked' less).2
  rw [loads.rank_eq, loads.rank_eq]
  simpa only [Nat.zero_add] using rising

include numbered

theorem placed (label : LabelId) (referred : label ∈ body.referred) :
    Placed code (names label) (body.place label) := by
  obtain ⟨n, member⟩ := (tidy.used label).mpr referred
  obtain ⟨q, marked, counted⟩ := (mem_marks_iff 0 _ label n).mp member
  refine ⟨q, ⟨(loads.marks_iff q _).mpr ⟨label, marked, rfl⟩, fun later behind again => ?_⟩, ?_⟩
  · obtain ⟨other, marked', same⟩ := (loads.marks_iff later _).mp again
    have inside := numbered label _ ((mem_marks_iff 0 _ label _).mpr ⟨q, marked, rfl⟩)
    have inside' := numbered other _ ((mem_marks_iff 0 _ other _).mpr ⟨later, marked', rfl⟩)
    cases loads.apart other label inside' inside same
    exact Nat.lt_irrefl _ (marks_pairwise 0 _ tidy.rising q later _ _ marked marked' behind).1
  · rw [loads.rank_eq, Body.place, lookup_rising _ tidy.rising label n member, counted, Nat.zero_add]
    rfl

theorem realises [Libraries] : Realises code ranges body.plan where
  lone := loads.lone tidy
  total := by
    rw [loads.rank_eq, plan, List.length_map, ← List.countP_eq_length_filter]
    have same := congrArg List.length loads.code
    rw [List.length_map, List.length_map] at same
    rw [same, List.take_length]
    rfl
  each := by
    intro q i here real
    have at_ := loads.get_elem?_code q
    rw [here] at at_
    obtain ⟨⟨op, operand⟩, there, pair⟩ := Option.map_eq_some_iff.mp at_.symm
    have isCode : i.opcode = op := (congrArg Prod.fst pair).symm
    have isOperand : i.operand = operand.mapLabels names := (congrArg Prod.snd pair).symm
    have isInstruction : isReal (op, operand) = true := by
      rw [isReal, ← Operand.is_label_map_labels names, ← isOperand]
      exact congrArg (!·) real
    refine ⟨(op, operand.mapLabels body.place), ?_, acts_map_labels i op operand names _ isCode isOperand, ?_⟩
    · have kept := get_elem?_filter_count_p isReal body.instructions q (op, operand) there isInstruction
      rw [loads.rank_eq]
      exact (List.getElem?_map ..).trans (congrArg _ kept)
    · intro label member
      rw [Instruction.targets, isOperand, Operand.targets_map_labels] at member
      obtain ⟨target, isTarget, rfl⟩ := List.mem_map.mp member
      refine ⟨body.place target, ?_, loads.placed tidy numbered target ?_⟩
      · rw [Operand.targets_map_labels]
        exact List.mem_map_of_mem isTarget
      · refine List.mem_append_left _ (List.mem_append_left _ (List.mem_flatMap.mpr ?_))
        exact ⟨(op, operand), List.mem_of_getElem? there, isTarget⟩
  ranges := by
    intro range member
    rw [loads.ranges] at member
    obtain ⟨r, isRange, rfl⟩ := List.mem_map.mp member
    have referred : ∀ label ∈ [r.start, r.stop, r.handler], label ∈ body.referred := fun label inside =>
      List.mem_append_left _ (List.mem_append_right _ (List.mem_flatMap.mpr ⟨r, isRange, inside⟩))
    have placed := fun label inside => loads.placed tidy numbered label (referred label inside)
    refine ⟨_, List.mem_map_of_mem isRange, placed r.start ?_, placed r.stop ?_, placed r.handler ?_⟩
    · simp
    · simp
    · simp

end Body.Loads

end Loaded

section Numbered

theorem number_offsets_count (flags : Array Bool) :
    (numberOffsets flags).2 = flags.toList.count true := by
  have general : ∀ (flags : List Bool) (numbers : Array (Option LabelId)) (next : Nat),
      (flags.foldl (fun (state : Array (Option LabelId) × Nat) flag =>
        if flag then (state.1.push (some ⟨state.2⟩), state.2 + 1)
        else (state.1.push none, state.2)) (numbers, next)).2 = next + flags.count true := by
    intro flags
    induction flags with
    | nil => exact fun _ _ => rfl
    | cons flag flags ih =>
        intro numbers next
        rw [List.foldl_cons]
        cases flag with
        | true => rw [if_pos rfl, ih, List.count_cons_self, Nat.add_right_comm, Nat.add_assoc]
        | false => rw [if_neg Bool.false_ne_true, ih, List.count_cons_of_ne (by decide)]
  rw [numberOffsets, ← Array.foldl_toList]
  exact (general flags.toList #[] 0).trans (Nat.zero_add _)

theorem number_offsets_lt (flags : Array Bool) (o : Nat) (label : LabelId)
    (found : (numberOffsets flags).1[o]? = some (some label)) : label.val < (numberOffsets flags).2 := by
  rw [← Array.getElem?_toList, number_offsets_to_list, get_elem?_numbered] at found
  obtain ⟨flag, here, isLabel⟩ := Option.map_eq_some_iff.mp found
  cases flag with
  | false => cases isLabel
  | true =>
      cases isLabel
      have inside := (List.getElem?_eq_some_iff.mp here).1
      have below := count_take_lt flags.toList o flags.toList.length here inside
      rw [List.take_length] at below
      rw [number_offsets_count, Nat.zero_add]
      exact below

theorem labels_numbered (bytes : List UInt8) (pool : Pool) (ranges : List RawRange) (locals : List RawLocal)
    (is : List RawInstruction) (body : Body) (read : readInstructions pool bytes = .ok is)
    (bare : ∀ i ∈ is, i.operand.Bare) (decoded : decode bytes pool ranges locals = .ok body)
    (label : LabelId) (n : Nat) (marked : (label, n) ∈ marks 0 body.instructions) :
    label.val < body.labelCount := by
  simp only [decode, read, bind, Except.bind] at decoded
  split at decoded
  · cases decoded
  · cases decoded
    obtain ⟨_, o, _, found⟩ := mem_marks _ bytes.length 0 is bare label n marked
    exact number_offsets_lt _ o label (Option.join_eq_some_iff.mp found)

end Numbered

end Code

end JvmEdit
