import JvmEdit.Proofs.ClassFile.Instructions
import JvmEdit.Proofs.Data.Except
set_option autoImplicit false

namespace JvmEdit

namespace Assembler

-- The index that a line carries leads to what its operand names.
def Line.Resolved (pool : Pool) (line : Line) : Prop :=
  match line.operand with
  | .constant value => pool.constant line.index = .ok value
  | .field use => pool.member line.index = .ok ⟨use.owner, use.name, use.descriptor, false⟩
  | .call call =>
      pool.member line.index = .ok ⟨call.owner, call.name, call.descriptor, call.isInterface⟩
  | .dynamicCall call => pool.dynamicCall line.index = .ok call
  | .type name => pool.className line.index = .ok name
  | .multiArray name _ => pool.className line.index = .ok name
  | _ => True

theorem growing_operand_index (operand : Operand) : Growing (operandIndex operand) := by
  cases operand with
  | constant value => exact PoolBuilder.growing_constant value
  | field use => exact PoolBuilder.growing_field_ref _ _ _
  | call call => exact PoolBuilder.growing_method_ref _ _ _ _
  | dynamicCall call => exact PoolBuilder.growing_dynamic_call _ _ _
  | type name => exact PoolBuilder.growing_class_name name
  | multiArray name dimensions => exact PoolBuilder.growing_class_name name
  | _ => exact .pure _

theorem resolved_operand_index (op : Opcode) (operand : Operand) (b b' b'' : PoolBuilder)
    (index : UInt16) (shaped : Code.Shaped op operand) (valid : b.Valid)
    (done : operandIndex operand b = .ok (index, b')) (grown : PoolBuilder.Grows b' b'') :
    Line.Resolved b''.pool ⟨op, operand, index⟩ := by
  cases operand with
  | constant value =>
      exact PoolBuilder.answers_constant value shaped.2 b b' index valid done b'' grown
  | field use => exact PoolBuilder.answers_field_ref _ _ _ b b' index valid done b'' grown
  | call call => exact PoolBuilder.answers_method_ref _ _ _ _ b b' index valid done b'' grown
  | dynamicCall call => exact PoolBuilder.answers_dynamic_call _ _ _ b b' index valid done b'' grown
  | type name => exact PoolBuilder.answers_class_name name b b' index valid done b'' grown
  | multiArray name dimensions =>
      exact PoolBuilder.answers_class_name name b b' index valid done b'' grown
  | _ => trivial

theorem growing_lines_onto (reversed : List Line) (code : List Instruction) :
    Growing (linesOnto reversed code) := by
  induction code generalizing reversed with
  | nil => exact .pure _
  | cons i code ih => exact (growing_operand_index i.operand).bind fun _ => ih _

theorem lines_onto_spec (reversed : List Line) (code : List Instruction) (b b' : PoolBuilder)
    (lines : List Line) (valid : b.Valid)
    (shaped : ∀ i ∈ code, Code.Shaped i.opcode i.operand)
    (done : linesOnto reversed code b = .ok (lines, b')) :
    ∃ more, lines = reversed.reverse ++ more ∧
      List.Forall₂ (fun i (line : Line) => line.opcode = i.opcode ∧ line.operand = i.operand ∧
        ∀ b'', PoolBuilder.Grows b' b'' → line.Resolved b''.pool) code more := by
  induction code generalizing reversed b with
  | nil =>
      cases done
      exact ⟨[], (List.append_nil _).symm, .nil⟩
  | cons i code ih =>
      obtain ⟨index, mid, ran, later⟩ := state_t_bind _ _ b b' lines done
      obtain ⟨more, isLines, each⟩ := ih _ mid ((growing_operand_index _ b mid index ran).valid valid)
        (fun j member => shaped j (List.mem_cons_of_mem _ member)) later
      refine ⟨⟨i.opcode, i.operand, index⟩ :: more, ?_, .cons ⟨rfl, rfl, ?_⟩ each⟩
      · rw [isLines, List.reverse_cons, List.append_assoc]
        rfl
      · intro b'' grown
        exact resolved_operand_index i.opcode i.operand b mid b'' index
          (shaped i (List.mem_cons_self ..)) valid ran
          ((growing_lines_onto _ code mid b' lines later).trans grown)

-- The code that loads a constant: by its width, and by how long its index is.
def loadOpcode (index : UInt16) (value : Constant) : Opcode :=
  if value.slots = 2 then Opcode.ldc2W else if fitsByte index then Opcode.ldc else Opcode.ldcW

-- The cases of a switch as they are written: a table has every key between its bounds, a lookup
-- has its keys in order.
def writtenCases (op : Opcode) (otherwise : LabelId) (cases : List (Int32 × LabelId)) :
    List (Int32 × LabelId) :=
  if op = Opcode.tableSwitch then
    (List.range (keySpan cases)).map fun (i : Nat) =>
      let key := Int32.ofInt ((keyBounds cases).1 + i)
      (key, (cases.lookup key).getD otherwise)
  else cases.mergeSort fun a b => a.1 ≤ b.1

-- What a conditional branch looks at: a number and zero, two numbers, whether two references are one, or
-- whether a reference is there at all.
inductive Comparands
  | withZero
  | numbers
  | references
  | withNull
  deriving DecidableEq, Repr

-- A conditional branch is taken when the comparison has one of these outcomes.
structure Condition where
  comparands : Comparands
  outcomes : List Ordering
  deriving DecidableEq, Repr

def Condition.holds (c : Condition) (outcome : Ordering) : Bool := c.outcomes.contains outcome

def conditions : List (Opcode × Condition) :=
  [(Opcode.ifEq, ⟨.withZero, [.eq]⟩), (Opcode.ifNe, ⟨.withZero, [.lt, .gt]⟩),
    (Opcode.ifLt, ⟨.withZero, [.lt]⟩), (Opcode.ifGe, ⟨.withZero, [.eq, .gt]⟩),
    (Opcode.ifGt, ⟨.withZero, [.gt]⟩), (Opcode.ifLe, ⟨.withZero, [.lt, .eq]⟩),
    (Opcode.ifIcmpEq, ⟨.numbers, [.eq]⟩), (Opcode.ifIcmpNe, ⟨.numbers, [.lt, .gt]⟩),
    (Opcode.ifIcmpLt, ⟨.numbers, [.lt]⟩), (Opcode.ifIcmpGe, ⟨.numbers, [.eq, .gt]⟩),
    (Opcode.ifIcmpGt, ⟨.numbers, [.gt]⟩), (Opcode.ifIcmpLe, ⟨.numbers, [.lt, .eq]⟩),
    (Opcode.ifAcmpEq, ⟨.references, [.eq]⟩), (Opcode.ifAcmpNe, ⟨.references, [.lt, .gt]⟩),
    (Opcode.ifNull, ⟨.withNull, [.eq]⟩), (Opcode.ifNonNull, ⟨.withNull, [.lt, .gt]⟩)]

-- Both branches look at the same, and each is taken exactly when the other is not.
def Opposed (op other : Opcode) : Prop :=
  ∃ c c', conditions.lookup op = some c ∧ conditions.lookup other = some c' ∧
    c'.comparands = c.comparands ∧ ∀ outcome, c'.holds outcome = !c.holds outcome

def Condition.opposes (c c' : Condition) : Bool :=
  c'.comparands = c.comparands && [.lt, .eq, .gt].all fun outcome => c'.holds outcome = !c.holds outcome

-- The branch with the opposite condition; an instruction without a condition stays as it is.
def opposite (op : Opcode) : Opcode :=
  (((conditions.lookup op).bind fun c => conditions.find? fun row => c.opposes row.2).map Prod.fst).getD op

def Context.place (c : Context) (layout : Layout) (label : LabelId) : Nat :=
  ((c.labels.lookup label).map layout.offset).getD 0

-- What a line is read as.
def Line.listed (c : Context) (layout : Layout) (offset : Nat) (isFar : Bool) (line : Line) :
    List Code.RawInstruction :=
  match line.operand with
  | .label _ => []
  | .constant value => [⟨offset, loadOpcode line.index value, .ready (.constant value)⟩]
  | .jump label =>
      let target := c.place layout label
      if !isFar then [⟨offset, line.opcode, .jump target⟩]
      else if line.opcode = Opcode.goto then [⟨offset, Opcode.gotoW, .jump target⟩]
      else if line.opcode = Opcode.jsr then [⟨offset, Opcode.jsrW, .jump target⟩]
      else [⟨offset, opposite line.opcode, .jump (offset + 8)⟩,
        ⟨offset + 3, Opcode.gotoW, .jump target⟩]
  | .switch otherwise cases =>
      [⟨offset, line.opcode, .switch (c.place layout otherwise)
        ((writtenCases line.opcode otherwise cases).map fun k => (k.1, c.place layout k.2))⟩]
  | operand => [⟨offset, line.opcode, .ready operand⟩]

theorem target_place (c : Context) (layout : Layout) (label : LabelId) (target : Nat)
    (found : c.target layout label = .ok target) : c.place layout label = target := by
  simp only [Context.target] at found
  simp only [Context.place]
  split at found
  · rename_i position known
    rw [known]
    exact Except.ok.inj found
  · cases found

theorem distance_place (c : Context) (layout : Layout) (offset : Nat) (label : LabelId)
    (distance : Int) (found : c.distance layout offset label = .ok distance) :
    distance = (c.place layout label : Int) - offset ∧
      c.target layout label = .ok (c.place layout label) := by
  obtain ⟨target, isTarget, isDistance⟩ := except_map _ _ _ found
  have place := target_place c layout label target isTarget
  rw [place]
  exact ⟨isDistance.symm, isTarget⟩

theorem inverted_opposite (op : Opcode) (short : Code.isShortBranch op = true)
    (notGoto : op ≠ Opcode.goto) (notJsr : op ≠ Opcode.jsr) :
    inverted op = .ok (opposite op) ∧ Code.isShortBranch (opposite op) = true := by
  have facts := Opcode.forall_of_all (fun op => !Code.isShortBranch op || op == Opcode.goto ||
    op == Opcode.jsr || (match inverted op with
      | .ok hop => hop == opposite op && Code.isShortBranch hop
      | .error _ => false)) (by decide +kernel) op
  simp only [short, beq_false_of_ne notGoto, beq_false_of_ne notJsr, Bool.not_true, Bool.false_or] at facts
  cases result : inverted op with
  | error e =>
      rw [result] at facts
      cases facts
  | ok hop =>
      rw [result] at facts
      obtain ⟨same, short⟩ := (Bool.and_eq_true ..).mp facts
      rw [← beq_iff_eq.mp same]
      exact ⟨rfl, short⟩

theorem opposed_opposite (op : Opcode) (short : Code.isShortBranch op = true) (notGoto : op ≠ Opcode.goto)
    (notJsr : op ≠ Opcode.jsr) : Opposed op (opposite op) := by
  have facts := Opcode.forall_of_all (fun op => !Code.isShortBranch op || op == Opcode.goto ||
    op == Opcode.jsr || ((conditions.lookup op).any fun c =>
      (conditions.lookup (opposite op)).any fun c' => c.opposes c')) (by decide +kernel) op
  simp only [short, beq_false_of_ne notGoto, beq_false_of_ne notJsr, Bool.not_true, Bool.false_or,
    Option.any_eq_true] at facts
  obtain ⟨c, isCondition, c', isOther, opposes⟩ := facts
  obtain ⟨same, differ⟩ := (Bool.and_eq_true ..).mp opposes
  refine ⟨c, c', isCondition, isOther, of_decide_eq_true same, fun outcome => ?_⟩
  have each := List.all_eq_true.mp differ outcome (by cases outcome <;> decide)
  exact of_decide_eq_true each

end Assembler

namespace Code

-- From one place to another exactly these instructions are read.
inductive Scans (pool : Pool) : Cursor → List RawInstruction → Cursor → Prop
  | nil (c : Cursor) : Scans pool c [] c
  | cons (c c' c'' : Cursor) (i : RawInstruction) (is : List RawInstruction)
      (read : readInstruction pool c = .ok (i, c')) (shorter : c'.rest.length < c.rest.length)
      (later : Scans pool c' is c'') : Scans pool c (i :: is) c''

theorem Scans.append {pool : Pool} {c c' c'' : Cursor} {is js : List RawInstruction}
    (first : Scans pool c is c') (second : Scans pool c' js c'') : Scans pool c (is ++ js) c'' := by
  induction first with
  | nil => exact second
  | cons _ _ _ i is read shorter _ ih => exact .cons _ _ _ i (is ++ js) read shorter (ih second)

theorem read_onto_scans (pool : Pool) (c last : Cursor) (is : List RawInstruction) (fuel : Nat)
    (reversed : List RawInstruction) (scans : Scans pool c is last) (done : last.rest = [])
    (enough : c.rest.length ≤ fuel) :
    readOnto pool fuel reversed c = .ok (reversed.reverse ++ is, last) := by
  induction scans generalizing fuel reversed with
  | nil c =>
      rw [List.append_nil]
      cases fuel with
      | zero => rfl
      | succ fuel =>
          rw [readOnto, Reader.bind_of _ _ c c true (by rw [Reader.isAtEnd, done]; rfl)]
          rfl
  | cons c c' _ i is read shorter _ ih =>
      obtain ⟨fuel, rfl⟩ : ∃ rest, fuel = rest + 1 := ⟨fuel - 1, by omega⟩
      have notEnd : c.rest.isEmpty = false := by
        cases empty : c.rest with
        | nil =>
            rw [empty] at shorter
            simp at shorter
        | cons => rfl
      have later := ih fuel (i :: reversed) done (by omega)
      rw [List.reverse_cons, List.append_assoc] at later
      rw [readOnto, Reader.bind_of _ _ c c false (by rw [Reader.isAtEnd, notEnd]),
        if_neg Bool.false_ne_true, Reader.bind_of _ _ c c' i read]
      exact later

theorem read_instructions_scans (pool : Pool) (bytes : List UInt8) (is : List RawInstruction)
    (stop : Nat) (scans : Scans pool ⟨bytes, 0⟩ is ⟨[], stop⟩) :
    readInstructions pool bytes = .ok is := by
  have read := read_onto_scans pool _ _ is bytes.length [] scans rfl (Nat.le_refl _)
  simp only [readInstructions, Reader.runOn]
  rw [read]
  rfl

theorem scans_one (pool : Pool) (op : Opcode) (bytes rest : List UInt8) (i : RawInstruction)
    (offset : Nat) (read : Reader.Reads (readTail pool offset op) bytes i) :
    Scans pool ⟨op :: bytes ++ rest, offset⟩ [i] ⟨rest, offset + (op :: bytes).length⟩ := by
  refine .cons _ _ _ i [] (read_instruction_of_tail pool op bytes i offset read rest) ?_ (.nil _)
  simp only [List.length_append, List.length_cons]
  omega

end Code

namespace Assembler

-- Under this layout the line fits where it stands: the code is short enough for all distances,
-- and a branch is near unless it is marked far.
structure Settled (c : Context) (layout : Layout) (offset : Nat) (isFar : Bool) (line : Line) :
    Prop where
  near : offset ≤ 65535
  placed : ∀ label, c.place layout label ≤ 65535
  fits : size line offset isFar ≤ 65535
  short : ∀ label, line.operand = .jump label → isFar = false → isWideBranch line.opcode = false →
    fitsSignedShort ((c.place layout label : Int) - offset) = true
  far : isFar = true → ∃ label, line.operand = .jump label ∧ isWideBranch line.opcode = false

theorem key_bounds_extremes (first : Int32 × LabelId) (rest : List (Int32 × LabelId)) :
    let keys := (first :: rest).map fun c => c.1.toInt
    keys.min? = some (keyBounds (first :: rest)).1 ∧
      keys.max? = some (keyBounds (first :: rest)).2 :=
  ⟨List.min?_cons', List.max?_cons'⟩

theorem key_bounds_word (cases : List (Int32 × LabelId)) (some : cases ≠ []) :
    ∃ low high : Int32, keyBounds cases = (low.toInt, high.toInt) ∧ low.toInt ≤ high.toInt := by
  obtain ⟨first, rest, rfl⟩ := List.exists_cons_of_ne_nil some
  obtain ⟨isMin, isMax⟩ := key_bounds_extremes first rest
  obtain ⟨memberLow, least⟩ := List.min?_eq_some_iff.mp isMin
  obtain ⟨memberHigh, _⟩ := List.max?_eq_some_iff.mp isMax
  have isKey : ∀ n ∈ (first :: rest).map (fun c => c.1.toInt), ∃ k : Int32, k.toInt = n := by
    intro n member
    obtain ⟨c, _, rfl⟩ := List.mem_map.mp member
    exact ⟨_, rfl⟩
  obtain ⟨k, isLow⟩ := isKey _ memberLow
  obtain ⟨l, isHigh⟩ := isKey _ memberHigh
  refine ⟨k, l, Prod.ext isLow.symm isHigh.symm, ?_⟩
  rw [isLow, isHigh]
  exact least _ memberHigh

section Lines

variable (pool : Pool) (c : Context) (layout : Layout) (offset : Nat) (isFar : Bool) (rest : List UInt8)

theorem scans_jump (line : Line) (label : LabelId) (bytes : List UInt8)
    (settled : Settled c layout offset isFar line) (isJump : line.operand = .jump label)
    (shaped : Code.isShortBranch line.opcode = true ∨ isWideBranch line.opcode = true)
    (written : c.jumpBytes layout offset isFar line.opcode label = .ok bytes) :
    Code.Scans pool ⟨bytes ++ rest, offset⟩ (line.listed c layout offset isFar)
      ⟨rest, offset + bytes.length⟩ := by
  have near := settled.near
  have placed := settled.placed label
  obtain ⟨distance, found, written⟩ := except_bind _ _ _ written
  obtain ⟨rfl, _⟩ := distance_place c layout offset label distance found
  simp only [Line.listed]
  rw [isJump]
  dsimp only
  by_cases wide : isWideBranch line.opcode = true
  · have notFar : isFar = false := by
      cases isFar with
      | false => rfl
      | true =>
          obtain ⟨_, _, narrow⟩ := settled.far rfl
          rw [wide] at narrow
          cases narrow
    rw [if_pos wide] at written
    cases written
    rw [notFar]
    exact Code.scans_one pool _ _ rest _ offset
      (Code.reads_far_branch pool line.opcode offset _ wide (by omega) (by omega))
  · have short : Code.isShortBranch line.opcode = true := shaped.resolve_right wide
    rw [if_neg wide] at written
    cases isFar with
    | false =>
        have fits := settled.short label isJump rfl (Bool.eq_false_iff.mpr wide)
        simp only [fitsSignedShort, Bool.and_eq_true, decide_eq_true_eq] at fits
        rw [Bool.not_false, if_pos rfl] at written ⊢
        cases written
        exact Code.scans_one pool _ _ rest _ offset
          (Code.reads_short_branch pool line.opcode offset _ short fits.1 fits.2)
    | true =>
        rw [Bool.not_true, if_neg Bool.false_ne_true] at written ⊢
        by_cases isGoto : line.opcode = Opcode.goto
        · rw [if_pos isGoto] at written ⊢
          cases written
          exact Code.scans_one pool _ _ rest _ offset
            (Code.reads_far_branch pool Opcode.gotoW offset _ rfl (by omega) (by omega))
        · rw [if_neg isGoto] at written ⊢
          by_cases isJsr : line.opcode = Opcode.jsr
          · rw [if_pos isJsr] at written ⊢
            cases written
            exact Code.scans_one pool _ _ rest _ offset
              (Code.reads_far_branch pool Opcode.jsrW offset _ rfl (by omega) (by omega))
          · rw [if_neg isJsr] at written ⊢
            obtain ⟨inverts, shortHop⟩ := inverted_opposite line.opcode short isGoto isJsr
            rw [inverts] at written
            cases written
            -- the hop goes behind the far branch, which is three bytes on
            have hop : (8 : Int) = ((offset + 8 : Nat) : Int) - offset := by omega
            have jump : (c.place layout label : Int) - offset - 3 =
                (c.place layout label : Int) - (offset + 3 : Nat) := by omega
            have first := Code.scans_one pool (opposite line.opcode) _
              (Opcode.gotoW :: i32 ((c.place layout label : Int) - offset - 3) ++ rest) _ offset
              (Code.reads_short_branch pool (opposite line.opcode) offset (offset + 8) shortHop
                (by omega) (by omega))
            have second := Code.scans_one pool Opcode.gotoW _ rest _ (offset + 3)
              (Code.reads_far_branch pool Opcode.gotoW (offset + 3) (c.place layout label) rfl
                (by omega) (by omega))
            rw [← hop] at first
            rw [← jump] at second
            exact first.append second

theorem distance_bytes (label : LabelId) (bytes : List UInt8)
    (written : i32 <$> c.distance layout offset label = .ok bytes) :
    bytes = Code.distanceBytes offset (c.place layout label) := by
  obtain ⟨distance, found, rfl⟩ := except_map _ _ _ written
  rw [(distance_place c layout offset label distance found).1]
  rfl

theorem table_key (low : Int32) (i : Nat) : low + Int32.ofNat i = Int32.ofInt (low.toInt + i) := by
  rw [Int32.ofInt_add, Int32.ofInt_toInt]
  rfl

theorem scans_table (line : Line) (otherwise : LabelId) (cases : List (Int32 × LabelId))
    (bytes : List UInt8) (settled : Settled c layout offset isFar line)
    (isSwitch : line.operand = .switch otherwise cases) (isTable : line.opcode = Opcode.tableSwitch)
    (some : cases ≠ [])
    (written : c.switchBytes layout offset line.opcode otherwise cases = .ok bytes) :
    Code.Scans pool ⟨bytes ++ rest, offset⟩ (line.listed c layout offset isFar)
      ⟨rest, offset + bytes.length⟩ := by
  have near := settled.near
  obtain ⟨low, high, bounds, ordered⟩ := key_bounds_word cases some
  have span : keySpan cases = (high.toInt - low.toInt + 1).toNat := by rw [keySpan, bounds]
  obtain ⟨default, isDefault, written⟩ := except_bind _ _ _ written
  rw [if_pos isTable, bounds] at written
  obtain ⟨entries, isEntries, written⟩ := except_bind _ _ _ written
  cases written
  let target (i : Nat) : Nat :=
    c.place layout ((cases.lookup (Int32.ofInt (low.toInt + i))).getD otherwise)
  have isEntries : entries = (List.range (keySpan cases)).map fun i =>
      Code.distanceBytes offset (target i) :=
    except_map_m_map _ _ _ entries (fun i bytes => distance_bytes c layout offset _ bytes) isEntries
  have table : ((List.range (keySpan cases)).map target).mapIdx
      (fun i t => (low + Int32.ofNat i, t)) =
        (writtenCases Opcode.tableSwitch otherwise cases).map fun k => (k.1, c.place layout k.2) := by
    rw [writtenCases, if_pos rfl, bounds]
    apply List.ext_getElem?
    intro i
    simp only [List.getElem?_mapIdx, List.getElem?_map]
    by_cases inside : i < keySpan cases
    · simp only [List.getElem?_range inside, Option.map_some, target, table_key]
    · rw [List.getElem?_eq_none (by rw [List.length_range]; omega)]
      rfl
  have read := Code.scans_one pool Opcode.tableSwitch _ rest _ offset
    (Code.reads_table_switch pool offset (c.place layout otherwise) low high
      ((List.range (keySpan cases)).map target) (by rw [Int32.lt_iff_toInt_lt]; omega)
      (by rw [List.length_map, List.length_range, span]) (by omega) (by
        intro t member
        rcases List.mem_cons.mp member with rfl | later
        · exact Nat.lt_of_le_of_lt (settled.placed otherwise) (by decide)
        · obtain ⟨i, _, rfl⟩ := List.mem_map.mp later
          exact Nat.lt_of_le_of_lt (settled.placed _) (by decide)))
  rw [table, List.flatMap_map] at read
  have listed : line.listed c layout offset isFar = [⟨offset, Opcode.tableSwitch,
      .switch (c.place layout otherwise)
        ((writtenCases Opcode.tableSwitch otherwise cases).map fun k =>
          (k.1, c.place layout k.2))⟩] := by
    simp only [Line.listed]
    rw [isSwitch, isTable]
  rw [listed, distance_bytes c layout offset otherwise default isDefault, isEntries,
    ← List.flatMap_def, isTable]
  simp only [i32, Int32.ofInt_toInt, List.append_assoc, List.cons_append] at read ⊢
  exact read

theorem scans_lookup (line : Line) (otherwise : LabelId) (cases : List (Int32 × LabelId))
    (bytes : List UInt8) (settled : Settled c layout offset isFar line)
    (isSwitch : line.operand = .switch otherwise cases) (isLookup : line.opcode = Opcode.lookupSwitch)
    (written : c.switchBytes layout offset line.opcode otherwise cases = .ok bytes) :
    Code.Scans pool ⟨bytes ++ rest, offset⟩ (line.listed c layout offset isFar)
      ⟨rest, offset + bytes.length⟩ := by
  have near := settled.near
  have notTable : line.opcode ≠ Opcode.tableSwitch := by
    rw [isLookup]
    decide
  have few : cases.length < 2 ^ 31 := by
    have fits := settled.fits
    simp only [size] at fits
    rw [isSwitch] at fits
    dsimp only at fits
    rw [if_neg notTable] at fits
    omega
  let sorted := cases.mergeSort fun a b => a.1 ≤ b.1
  have sameLength : sorted.length = cases.length := List.length_mergeSort ..
  let placed := sorted.map fun k => (k.1, c.place layout k.2)
  obtain ⟨default, isDefault, written⟩ := except_bind _ _ _ written
  rw [if_neg notTable] at written
  obtain ⟨entries, isEntries, written⟩ := except_bind _ _ _ written
  cases written
  have isEntries : entries = sorted.map fun k =>
      Code.caseBytes offset (k.1, c.place layout k.2) := by
    refine except_map_m_map _ _ _ entries ?_ isEntries
    rintro ⟨key, label⟩ bytes done
    obtain ⟨distance, isDistance, isBytes⟩ := except_bind _ _ _ done
    cases isBytes
    rw [distance_bytes c layout offset label distance isDistance, Code.caseBytes, i32,
      Int32.ofInt_toInt]
  have read := Code.scans_one pool Opcode.lookupSwitch _ rest _ offset
    (Code.reads_lookup_switch pool offset (c.place layout otherwise) placed
      (by rw [List.length_map, sameLength]; exact few) (by omega)
      (Nat.lt_of_le_of_lt (settled.placed otherwise) (by decide)) (by
        intro k member
        obtain ⟨k', _, rfl⟩ := List.mem_map.mp member
        exact Nat.lt_of_le_of_lt (settled.placed _) (by decide)))
  rw [List.length_map, sameLength, List.flatMap_map] at read
  have listed : line.listed c layout offset isFar = [⟨offset, Opcode.lookupSwitch,
      .switch (c.place layout otherwise) placed⟩] := by
    simp only [Line.listed]
    rw [isSwitch]
    dsimp only
    rw [isLookup, writtenCases, if_neg (by decide)]
  rw [listed, distance_bytes c layout offset otherwise default isDefault, isEntries,
    ← List.flatMap_def, isLookup]
  simp only [List.append_assoc, List.cons_append] at read ⊢
  exact read

theorem scans_plain (op : Opcode) (operand : Operand) (tail : List UInt8)
    (plain : Code.isPlain op = true) (read : Reader.Reads (Code.readOperand pool op) tail operand) :
    Code.Scans pool ⟨op :: tail ++ rest, offset⟩ [⟨offset, op, .ready operand⟩]
      ⟨rest, offset + (op :: tail).length⟩ :=
  Code.scans_one pool op tail rest _ offset (Code.reads_plain pool op tail operand offset plain read)

-- The kinds of instructions that are their code and the bytes of their operand.
def plainKinds : List (Opcode → Bool) :=
  [Code.isSimple, Code.takesSlot, Code.isFieldAccess, Code.isCall, Code.isTyped]

theorem is_plain_of (p : Opcode → Bool) (op : Opcode) (holds : p op = true) (kind : p ∈ plainKinds) :
    Code.isPlain op = true := by
  have facts := Opcode.forall_of_all (fun op => plainKinds.all fun p => !p op || Code.isPlain op)
    (by decide +kernel) op
  have fact := List.all_eq_true.mp facts p kind
  simpa only [holds, Bool.not_true, Bool.false_or] using fact

-- The codes that belong to no such kind and are read in the same way.
def plainCodes : List Opcode :=
  [Opcode.bipush, Opcode.sipush, Opcode.ldc, Opcode.ldcW, Opcode.ldc2W, Opcode.iinc,
    Opcode.invokeDynamic, Opcode.newArray, Opcode.newMultiArray]

theorem is_plain_code (op : Opcode) (code : op ∈ plainCodes) : Code.isPlain op = true := by
  have facts : plainCodes.all Code.isPlain = true := by decide +kernel
  exact List.all_eq_true.mp facts op code

theorem scans_slot [Libraries] (op : Opcode) (slot index : UInt16) (bytes : List UInt8)
    (shaped : Code.Shaped op (.var slot))
    (written : c.lineBytes layout offset isFar ⟨op, .var slot, index⟩ = .ok bytes) :
    Code.Scans pool ⟨bytes ++ rest, offset⟩ [⟨offset, op, .ready (.var slot)⟩]
      ⟨rest, offset + bytes.length⟩ := by
  change Except.ok (if fitsByte slot then _ else _) = _ at written
  by_cases small : fitsByte slot = true
  · rw [if_pos small] at written
    cases written
    exact scans_plain pool offset rest op _ _ (is_plain_of _ op shaped (by simp [plainKinds]))
      (Code.reads_slot pool op slot shaped (of_decide_eq_true small))
  · rw [if_neg small] at written
    cases written
    exact Code.scans_one pool Opcode.wide _ rest _ offset
      (Code.reads_wide_slot pool op slot offset shaped)

theorem scans_increment [Libraries] (slot index : UInt16) (delta : Int16) (bytes : List UInt8)
    (written : c.lineBytes layout offset isFar ⟨Opcode.iinc, .increment slot delta, index⟩ =
      .ok bytes) :
    Code.Scans pool ⟨bytes ++ rest, offset⟩
      [⟨offset, Opcode.iinc, .ready (.increment slot delta)⟩] ⟨rest, offset + bytes.length⟩ := by
  change Except.ok (if fitsByte slot && fitsSignedByte delta then _ else _) = _ at written
  by_cases small : (fitsByte slot && fitsSignedByte delta) = true
  · rw [if_pos small] at written
    cases written
    simp only [fitsByte, fitsSignedByte, Bool.and_eq_true, decide_eq_true_eq] at small
    exact scans_plain pool offset rest _ _ _ (is_plain_code _ (by simp [plainCodes]))
      (Code.reads_increment pool slot delta small.1 small.2.1 small.2.2)
  · rw [if_neg small] at written
    cases written
    exact Code.scans_one pool Opcode.wide _ rest _ offset
      (Code.reads_wide_increment pool slot delta offset)

theorem scans_constant [Libraries] (op : Opcode) (value : Constant) (index : UInt16)
    (bytes : List UInt8) (resolved : (⟨op, .constant value, index⟩ : Line).Resolved pool)
    (written : c.lineBytes layout offset isFar ⟨op, .constant value, index⟩ = .ok bytes) :
    Code.Scans pool ⟨bytes ++ rest, offset⟩
      [⟨offset, loadOpcode index value, .ready (.constant value)⟩] ⟨rest, offset + bytes.length⟩ := by
  change Except.ok (if value.slots = 2 then _ else if !fitsByte index then _ else _) = _ at written
  unfold loadOpcode
  by_cases double : value.slots = 2
  · rw [if_pos double] at written ⊢
    cases written
    exact scans_plain pool offset rest _ _ _ (is_plain_code _ (by simp [plainCodes]))
      (Code.reads_wide_ldc pool _ index value (Or.inr rfl) resolved)
  · rw [if_neg double] at written ⊢
    by_cases small : fitsByte index = true
    · rw [small] at written
      rw [if_pos small]
      cases written
      exact scans_plain pool offset rest _ _ _ (is_plain_code _ (by simp [plainCodes]))
        (Code.reads_ldc pool index value (of_decide_eq_true small) resolved)
    · rw [Bool.eq_false_iff.mpr small] at written
      rw [if_neg small]
      cases written
      exact scans_plain pool offset rest _ _ _ (is_plain_code _ (by simp [plainCodes]))
        (Code.reads_wide_ldc pool _ index value (Or.inl rfl) resolved)

theorem scans_line [Libraries] (line : Line) (bytes : List UInt8)
    (settled : Settled c layout offset isFar line)
    (shaped : Code.Shaped line.opcode line.operand) (resolved : line.Resolved pool)
    (written : c.lineBytes layout offset isFar line = .ok bytes) :
    Code.Scans pool ⟨bytes ++ rest, offset⟩ (line.listed c layout offset isFar)
      ⟨rest, offset + bytes.length⟩ := by
  obtain ⟨op, operand, index⟩ := line
  have plain := scans_plain pool offset rest op operand
  cases operand with
  | label label =>
      cases written
      exact .nil _
  | simple =>
      cases written
      exact plain [] (is_plain_of _ op shaped (by simp [plainKinds])) (Code.reads_simple pool op shaped)
  | int value =>
      rcases shaped with ⟨rfl, least, most⟩ | ⟨rfl, least, most⟩
      · cases written
        exact plain _ (is_plain_code _ (by simp [plainCodes])) (Code.reads_byte pool value least most)
      · cases written
        exact plain _ (is_plain_code _ (by simp [plainCodes])) (Code.reads_short pool value least most)
  | var slot => exact scans_slot pool c layout offset isFar rest op slot index bytes shaped written
  | increment slot delta =>
      have isIinc : op = Opcode.iinc := shaped
      subst isIinc
      exact scans_increment pool c layout offset isFar rest slot index delta bytes written
  | constant value =>
      exact scans_constant pool c layout offset isFar rest op value index bytes resolved written
  | jump label => exact scans_jump pool c layout offset isFar rest _ label bytes settled rfl shaped written
  | switch otherwise cases =>
      rcases shaped with isLookup | ⟨isTable, some, _⟩
      · exact scans_lookup pool c layout offset isFar rest _ otherwise cases bytes settled rfl isLookup
          written
      · exact scans_table pool c layout offset isFar rest _ otherwise cases bytes settled rfl isTable
          some written
  | field use =>
      cases written
      exact plain _ (is_plain_of _ op shaped.1 (by simp [plainKinds]))
        (Code.reads_field pool op index use shaped.1 shaped.2.1 shaped.2.2 resolved)
  | call call =>
      cases written
      exact plain _ (is_plain_of _ op shaped.1 (by simp [plainKinds]))
        (Code.reads_call pool op index call _ shaped.1 shaped.2 resolved)
  | dynamicCall call =>
      have isDynamic : op = Opcode.invokeDynamic := shaped
      subst isDynamic
      cases written
      exact plain _ (is_plain_code _ (by simp [plainCodes]))
        (Code.reads_dynamic_call pool index call resolved)
  | type name =>
      cases written
      exact plain _ (is_plain_of _ op shaped (by simp [plainKinds]))
        (Code.reads_type pool op index name shaped resolved)
  | newArray code =>
      have isNew : op = Opcode.newArray := shaped
      subst isNew
      cases written
      exact plain _ (is_plain_code _ (by simp [plainCodes])) (Code.reads_new_array pool code)
  | multiArray name dimensions =>
      have isMulti : op = Opcode.newMultiArray := shaped
      subst isMulti
      cases written
      exact plain _ (is_plain_code _ (by simp [plainCodes]))
        (Code.reads_multi_array pool index name dimensions resolved)

end Lines

end Assembler

end JvmEdit
