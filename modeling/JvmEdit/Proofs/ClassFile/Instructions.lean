import Mathlib.Tactic.MkIffOfInductiveProp
import JvmEdit.ClassFile.Assembler
import JvmEdit.Proofs.ClassFile.Requests
set_option autoImplicit false

namespace JvmEdit

namespace Opcode

theorem forall_of_all (p : Opcode → Bool) (all : ∀ n < 256, p (UInt8.ofNat n) = true)
    (op : Opcode) : p op = true := by
  have here := all op.toNat op.toNat_lt
  rwa [UInt8.ofNat_toNat] at here

end Opcode

namespace Code

def isSimple (op : Opcode) : Bool :=
  op ≤ Opcode.dconst1 || (Opcode.iload0 ≤ op && op < Opcode.istore) ||
    (Opcode.istore0 ≤ op && op < Opcode.iinc) || (Opcode.iinc < op && op < Opcode.ifEq) ||
    op.isReturn || op = 0xbe || op = Opcode.throwRef || op = 0xc2 || op = 0xc3

def isFieldAccess (op : Opcode) : Bool := Opcode.getStatic ≤ op && op ≤ Opcode.putField

def isCall (op : Opcode) : Bool := Opcode.invokeVirtual ≤ op && op ≤ Opcode.invokeInterface

def isTyped (op : Opcode) : Bool :=
  op = Opcode.newObject || op = Opcode.newRefArray || op = Opcode.checkCast || op = Opcode.instanceOf

def fieldMode (op : Opcode) : FieldMode :=
  if op = Opcode.getStatic || op = Opcode.getField then .read else .write

def isStaticAccess (op : Opcode) : Bool := op = Opcode.getStatic || op = Opcode.putStatic

-- The operands that a code is read with.
def Shaped (op : Opcode) : Operand → Prop
  | .label _ => op = Opcode.label
  | .simple => isSimple op = true
  | .int value => op = Opcode.bipush ∧ -128 ≤ value.toInt ∧ value.toInt ≤ 127 ∨
      op = Opcode.sipush ∧ -32768 ≤ value.toInt ∧ value.toInt ≤ 32767
  | .var _ => takesSlot op = true
  | .increment _ _ => op = Opcode.iinc
  | .constant value => (op = Opcode.ldc ∨ op = Opcode.ldcW ∨ op = Opcode.ldc2W) ∧ value.Direct
  | .jump _ => isShortBranch op = true ∨ Assembler.isWideBranch op = true
  | .switch _ cases => op = Opcode.lookupSwitch ∨
      op = Opcode.tableSwitch ∧ cases ≠ [] ∧ Assembler.keySpan cases < 2 ^ 30
  | .field use => isFieldAccess op = true ∧ use.mode = fieldMode op ∧ use.isStatic = isStaticAccess op
  | .call call => isCall op = true ∧ call.kind = callKind op
  | .dynamicCall _ => op = Opcode.invokeDynamic
  | .type _ => isTyped op = true
  | .newArray _ => op = Opcode.newArray
  | .multiArray _ _ => op = Opcode.newMultiArray

instance (value : Constant) : Decidable value.Direct :=
  match value with
  | .methodHandle kind _ _ _ isInterface =>
      inferInstanceAs (Decidable (kind ≤ 4 → isInterface = false))
  | .int _ | .float _ | .long _ | .double _ | .string _ | .classRef _ | .methodType _ | .dynamic .. =>
      inferInstanceAs (Decidable True)

instance (op : Opcode) (operand : Operand) : Decidable (Shaped op operand) :=
  match operand with
  | .label _ => inferInstanceAs (Decidable (op = Opcode.label))
  | .simple => inferInstanceAs (Decidable (isSimple op = true))
  | .int value => inferInstanceAs (Decidable (op = Opcode.bipush ∧ -128 ≤ value.toInt ∧
      value.toInt ≤ 127 ∨ op = Opcode.sipush ∧ -32768 ≤ value.toInt ∧ value.toInt ≤ 32767))
  | .var _ => inferInstanceAs (Decidable (takesSlot op = true))
  | .increment _ _ => inferInstanceAs (Decidable (op = Opcode.iinc))
  | .constant value => inferInstanceAs (Decidable
      ((op = Opcode.ldc ∨ op = Opcode.ldcW ∨ op = Opcode.ldc2W) ∧ value.Direct))
  | .jump _ => inferInstanceAs (Decidable
      (isShortBranch op = true ∨ Assembler.isWideBranch op = true))
  | .switch _ cases => inferInstanceAs (Decidable (op = Opcode.lookupSwitch ∨
      op = Opcode.tableSwitch ∧ cases ≠ [] ∧ Assembler.keySpan cases < 2 ^ 30))
  | .field use => inferInstanceAs (Decidable
      (isFieldAccess op = true ∧ use.mode = fieldMode op ∧ use.isStatic = isStaticAccess op))
  | .call call => inferInstanceAs (Decidable (isCall op = true ∧ call.kind = callKind op))
  | .dynamicCall _ => inferInstanceAs (Decidable (op = Opcode.invokeDynamic))
  | .type _ => inferInstanceAs (Decidable (isTyped op = true))
  | .newArray _ => inferInstanceAs (Decidable (op = Opcode.newArray))
  | .multiArray _ _ => inferInstanceAs (Decidable (op = Opcode.newMultiArray))

def isPlain (op : Opcode) : Bool :=
  op.isValid && !isShortBranch op && !Assembler.isWideBranch op && !op.isSwitch && op ≠ Opcode.wide

section Operands

variable (pool : Pool)

-- What is read behind the code of an instruction.
def readTail (offset : Nat) (op : Opcode) : Reader RawInstruction := do
  if isShortBranch op then
    let distance ← Reader.i16
    let target ← branchTarget offset distance.toInt
    return ⟨offset, op, .jump target⟩
  else if op = Opcode.gotoW || op = Opcode.jsrW then
    let target ← readBranch offset
    return ⟨offset, op, .jump target⟩
  else if op = Opcode.tableSwitch then
    let operand ← readTableSwitch offset
    return ⟨offset, op, operand⟩
  else if op = Opcode.lookupSwitch then
    let operand ← readLookupSwitch offset
    return ⟨offset, op, operand⟩
  else if op = Opcode.wide then
    let (op, operand) ← readWide offset
    return ⟨offset, op, operand⟩
  else if op.isValid then
    let operand ← readOperand pool op
    return ⟨offset, op, .ready operand⟩
  else Reader.fail (.unknownOpcode op offset)

theorem read_instruction_of_tail (op : Opcode) (bytes : List UInt8) (i : RawInstruction) (offset : Nat)
    (read : Reader.Reads (readTail pool offset op) bytes i) (rest : List UInt8) :
    readInstruction pool ⟨op :: bytes ++ rest, offset⟩ =
      .ok (i, ⟨rest, offset + (op :: bytes).length⟩) := by
  have tail := read rest (offset + 1)
  rw [Nat.add_assoc, Nat.add_comm 1] at tail
  exact tail

theorem reads_plain (op : Opcode) (bytes : List UInt8) (operand : Operand) (offset : Nat)
    (plain : isPlain op = true) (read : Reader.Reads (readOperand pool op) bytes operand) :
    Reader.Reads (readTail pool offset op) bytes ⟨offset, op, .ready operand⟩ := by
  simp only [isPlain, Assembler.isWideBranch, Opcode.isSwitch, Bool.and_eq_true, Bool.not_eq_true',
    Bool.or_eq_false_iff, decide_eq_false_iff_not, decide_eq_true_eq] at plain
  obtain ⟨⟨⟨⟨valid, short⟩, far⟩, notSwitch⟩, notWide⟩ := plain
  simp only [readTail]
  simp only [short, Bool.false_eq_true, far.1, far.2, notSwitch.1, notSwitch.2, notWide, valid,
    decide_false, Bool.or_self, if_false, if_true]
  exact read.last (Reader.reads_pure _)

-- Codes that `readOperand` looks at behind the constants.
def isLate (op : Opcode) : Bool :=
  !(op ≤ Opcode.dconst1 || op = Opcode.bipush || op = Opcode.sipush || op = Opcode.ldc ||
    (op = Opcode.ldcW || op = Opcode.ldc2W) || takesSlot op || op = Opcode.iinc || op < Opcode.ifEq ||
    op.isReturn)

-- What is known of an instruction by the kind of its operand.
@[mk_iff]
structure Kinds (op : Opcode) : Prop where
  slot : takesSlot op = true → op ≠ Opcode.iinc ∧ (op ≤ Opcode.dconst1 || op = Opcode.bipush ||
    op = Opcode.sipush || op = Opcode.ldc || (op = Opcode.ldcW || op = Opcode.ldc2W)) = false
  field : isFieldAccess op = true → isLate op = true
  call : isCall op = true → isLate op = true ∧ isFieldAccess op = false
  typed : isTyped op = true →
    isLate op = true ∧ isFieldAccess op = false ∧ isCall op = false ∧ op ≠ Opcode.invokeDynamic
  far : Assembler.isWideBranch op = true → isShortBranch op = false

instance (op : Opcode) : Decidable (Kinds op) := decidable_of_iff' _ (kinds_iff op)

theorem kinds (op : Opcode) : Kinds op :=
  of_decide_eq_true (Opcode.forall_of_all (fun op => decide (Kinds op)) (by decide +kernel) op)

theorem read_operand_late (op : Opcode) (late : isLate op = true) : readOperand pool op =
    if isFieldAccess op then do
      let index ← Reader.u16
      let m ← pool.member index
      return .field ⟨m.owner, m.name, m.descriptor, fieldMode op, isStaticAccess op⟩
    else if isCall op then do
      let index ← Reader.u16
      let m ← pool.member index
      if op = Opcode.invokeInterface then Reader.skip 2
      return .call ⟨m.owner, m.name, m.descriptor, m.isInterface, callKind op⟩
    else if op = Opcode.invokeDynamic then do
      let index ← Reader.u16
      let call ← pool.dynamicCall index
      Reader.skip 2
      return .dynamicCall call
    else if isTyped op then do
      let index ← Reader.u16
      let name ← pool.className index
      return .type name
    else if op = Opcode.newArray then do
      let code ← Reader.u8
      return .newArray code
    else if op = Opcode.newMultiArray then do
      let index ← Reader.u16
      let name ← pool.className index
      let dimensions ← Reader.u8
      return .multiArray name dimensions
    else return .simple := by
  simp only [isLate, Bool.not_eq_true', Bool.or_eq_false_iff, decide_eq_false_iff_not] at late
  obtain ⟨⟨⟨⟨⟨⟨⟨⟨small, bipush⟩, sipush⟩, ldc⟩, wideLdc⟩, slot⟩, iinc⟩, arithmetic⟩, returns⟩ := late
  simp only [readOperand]
  simp only [small, bipush, sipush, ldc, wideLdc.1, wideLdc.2, slot, iinc, arithmetic, returns,
    decide_false, Bool.or_self, Bool.false_eq_true, if_false]
  rfl

theorem read_operand_simple (op : Opcode) (simple : isSimple op = true) :
    readOperand pool op = pure .simple := by
  have cases := Opcode.forall_of_all (fun op => !isSimple op || (op ≤ Opcode.dconst1 ||
    !(op ≤ Opcode.dconst1 || op = Opcode.bipush || op = Opcode.sipush || op = Opcode.ldc ||
      (op = Opcode.ldcW || op = Opcode.ldc2W) || takesSlot op || op = Opcode.iinc) &&
      (op < Opcode.ifEq || op.isReturn) ||
    isLate op && !(isFieldAccess op || isCall op || op = Opcode.invokeDynamic || isTyped op ||
      op = Opcode.newArray || op = Opcode.newMultiArray))) (by decide +kernel) op
  simp only [simple, Bool.not_true, Bool.false_or, Bool.or_eq_true, Bool.and_eq_true,
    Bool.not_eq_true', Bool.or_eq_false_iff, decide_eq_false_iff_not, decide_eq_true_eq] at cases
  rcases cases with (small | ⟨early, middle⟩) | ⟨late, others⟩
  · simp only [readOperand]
    rw [if_pos small]
  · obtain ⟨⟨⟨⟨⟨⟨small, bipush⟩, sipush⟩, ldc⟩, wideLdc⟩, slot⟩, iinc⟩ := early
    simp only [readOperand]
    simp only [small, bipush, sipush, ldc, wideLdc.1, wideLdc.2, slot, iinc, decide_false,
      Bool.or_self, Bool.false_eq_true, if_false]
    rcases middle with arithmetic | returns
    · rw [if_pos arithmetic]
    · rw [returns, if_pos rfl, ite_self]
  · obtain ⟨⟨⟨⟨⟨field, call⟩, dynamic⟩, typed⟩, newArray⟩, multi⟩ := others
    rw [read_operand_late pool op late]
    simp only [field, call, dynamic, typed, newArray, multi, Bool.false_eq_true, if_false]

theorem reads_simple (op : Opcode) (simple : isSimple op = true) :
    Reader.Reads (readOperand pool op) [] .simple := by
  rw [read_operand_simple pool op simple]
  exact Reader.reads_pure _

theorem reads_byte (value : Int32) (least : -128 ≤ value.toInt) (most : value.toInt ≤ 127) :
    Reader.Reads (readOperand pool Opcode.bipush) [Assembler.i8 value.toInt] (.int value) := by
  have whole : (Int8.ofInt value.toInt).toInt32 = value := by
    rw [← Int32.toInt_inj, Int8.toInt_toInt32, Int8.toInt_ofInt_of_le (by omega) (by omega)]
  have read : Reader.Reads (readOperand pool Opcode.bipush) [(Int8.ofInt value.toInt).toUInt8]
      (.int (Int8.ofInt value.toInt).toInt32) :=
    (Reader.reads_i8 (Int8.ofInt value.toInt)).last (Reader.reads_pure _)
  rw [whole] at read
  exact read

theorem reads_short (value : Int32) (least : -32768 ≤ value.toInt) (most : value.toInt ≤ 32767) :
    Reader.Reads (readOperand pool Opcode.sipush) (Assembler.i16 value.toInt) (.int value) := by
  have whole : (Int16.ofInt value.toInt).toInt32 = value := by
    rw [← Int32.toInt_inj, Int16.toInt_toInt32, Int16.toInt_ofInt_of_le (by omega) (by omega)]
  have read : Reader.Reads (readOperand pool Opcode.sipush)
      (Bytes.u16 (Int16.ofInt value.toInt).toUInt16) (.int (Int16.ofInt value.toInt).toInt32) :=
    (Reader.reads_i16 (Int16.ofInt value.toInt)).last (Reader.reads_pure _)
  rw [whole] at read
  exact read

theorem read_operand_slot (op : Opcode) (slot : takesSlot op = true) : readOperand pool op = do
    let slot ← Reader.u8
    return .var slot.toUInt16 := by
  have early := ((kinds op).slot slot).2
  simp only [Bool.or_eq_false_iff, decide_eq_false_iff_not] at early
  obtain ⟨⟨⟨⟨small, bipush⟩, sipush⟩, ldc⟩, wideLdc⟩ := early
  simp only [readOperand]
  simp only [small, bipush, sipush, ldc, wideLdc.1, wideLdc.2, slot, decide_false, Bool.or_self,
    Bool.false_eq_true, if_false, if_true]

theorem narrow_slot (slot : UInt16) (small : slot ≤ 255) : slot.toUInt8.toUInt16 = slot := by
  have bound : slot.toNat ≤ 255 := UInt16.le_iff_toNat_le.mp small
  rw [← UInt16.toNat_inj, UInt8.toNat_toUInt16, UInt16.toNat_toUInt8]
  omega

theorem reads_slot (op : Opcode) (slot : UInt16) (takes : takesSlot op = true) (small : slot ≤ 255) :
    Reader.Reads (readOperand pool op) [slot.toUInt8] (.var slot) := by
  rw [read_operand_slot pool op takes]
  refine (Reader.reads_u8 slot.toUInt8).last ?_
  rw [narrow_slot slot small]
  exact Reader.reads_pure _

theorem narrow_delta (delta : Int16) (least : -128 ≤ delta.toInt) (most : delta.toInt ≤ 127) :
    (Int8.ofInt delta.toInt).toInt16 = delta := by
  rw [← Int16.toInt_inj, Int8.toInt_toInt16, Int8.toInt_ofInt_of_le (by omega) (by omega)]

theorem reads_increment (slot : UInt16) (delta : Int16) (small : slot ≤ 255)
    (least : -128 ≤ delta.toInt) (most : delta.toInt ≤ 127) :
    Reader.Reads (readOperand pool Opcode.iinc) [slot.toUInt8, Assembler.i8 delta.toInt]
      (.increment slot delta) := by
  refine (Reader.reads_u8 slot.toUInt8).bind ((Reader.reads_i8 (Int8.ofInt delta.toInt)).last ?_)
  rw [narrow_slot slot small, narrow_delta delta least most]
  exact Reader.reads_pure _

theorem reads_ldc (index : UInt16) (value : Constant) (small : index ≤ 255)
    (found : pool.constant index = .ok value) :
    Reader.Reads (readOperand pool Opcode.ldc) [index.toUInt8] (.constant value) := by
  refine (Reader.reads_u8 index.toUInt8).last ?_
  rw [narrow_slot index small]
  exact (Reader.reads_lift _ value found).last (Reader.reads_pure _)

theorem reads_wide_ldc (op : Opcode) (index : UInt16) (value : Constant)
    (wide : op = Opcode.ldcW ∨ op = Opcode.ldc2W) (found : pool.constant index = .ok value) :
    Reader.Reads (readOperand pool op) (Bytes.u16 index) (.constant value) := by
  rcases wide with rfl | rfl <;>
    exact (Reader.reads_u16 index).last ((Reader.reads_lift _ value found).last (Reader.reads_pure _))

theorem reads_field (op : Opcode) (index : UInt16) (use : FieldUse) (access : isFieldAccess op = true)
    (mode : use.mode = fieldMode op) (static : use.isStatic = isStaticAccess op)
    (found : pool.member index = .ok ⟨use.owner, use.name, use.descriptor, false⟩) :
    Reader.Reads (readOperand pool op) (Bytes.u16 index) (.field use) := by
  rw [read_operand_late pool op ((kinds op).field access), if_pos access, ← mode, ← static]
  exact (Reader.reads_u16 index).last ((Reader.reads_lift _ _ found).last (Reader.reads_pure _))

theorem reads_call (op : Opcode) (index : UInt16) (call : Call) (count : UInt8)
    (calls : isCall op = true) (kind : call.kind = callKind op)
    (found : pool.member index = .ok ⟨call.owner, call.name, call.descriptor, call.isInterface⟩) :
    Reader.Reads (readOperand pool op)
      (Bytes.u16 index ++ if op = Opcode.invokeInterface then [count, 0] else []) (.call call) := by
  obtain ⟨late, field⟩ := (kinds op).call calls
  rw [read_operand_late pool op late, field, if_neg Bool.false_ne_true, if_pos calls, ← kind]
  by_cases interface : op = Opcode.invokeInterface
  · simp only [interface, if_true]
    exact (Reader.reads_u16 index).bind ((Reader.reads_lift _ _ found).bind
      ((Reader.reads_skip [count, 0]).last (Reader.reads_pure (Operand.call call))))
  · simp only [interface, if_false]
    exact (Reader.reads_u16 index).bind ((Reader.reads_lift _ _ found).bind
      (Reader.reads_pure (Operand.call call)))

theorem reads_dynamic_call (index : UInt16) (call : DynamicCall)
    (found : pool.dynamicCall index = .ok call) :
    Reader.Reads (readOperand pool Opcode.invokeDynamic) (Bytes.u16 index ++ [0, 0])
      (.dynamicCall call) :=
  (Reader.reads_u16 index).bind ((Reader.reads_lift _ _ found).bind
    ((Reader.reads_skip [0, 0]).last (Reader.reads_pure _)))

theorem reads_type (op : Opcode) (index : UInt16) (name : String) (typed : isTyped op = true)
    (found : pool.className index = .ok name) :
    Reader.Reads (readOperand pool op) (Bytes.u16 index) (.type name) := by
  obtain ⟨late, field, call, dynamic⟩ := (kinds op).typed typed
  rw [read_operand_late pool op late, field, call, if_neg Bool.false_ne_true,
    if_neg Bool.false_ne_true, if_neg dynamic, if_pos typed]
  exact (Reader.reads_u16 index).last ((Reader.reads_lift _ _ found).last (Reader.reads_pure _))

theorem reads_new_array (code : UInt8) :
    Reader.Reads (readOperand pool Opcode.newArray) [code] (.newArray code) :=
  (Reader.reads_u8 code).last (Reader.reads_pure _)

theorem reads_multi_array (index : UInt16) (name : String) (dimensions : UInt8)
    (found : pool.className index = .ok name) :
    Reader.Reads (readOperand pool Opcode.newMultiArray) (Bytes.u16 index ++ [dimensions])
      (.multiArray name dimensions) :=
  (Reader.reads_u16 index).bind ((Reader.reads_lift _ _ found).bind
    ((Reader.reads_u8 dimensions).last (Reader.reads_pure _)))

theorem narrow_distance (distance : Int) (least : -2 ^ 31 ≤ distance) (most : distance < 2 ^ 31) :
    (Int32.ofInt distance).toInt = distance := Int32.toInt_ofInt_of_le least most

theorem branch_target_distance (offset target : Nat) :
    branchTarget offset ((target : Int) - offset) = .ok target := by
  have whole : (offset : Int) + ((target : Int) - offset) = target := by omega
  simp only [branchTarget, whole, Int.natCast_nonneg, if_true, Int.toNat_natCast]

theorem reads_branch (offset target : Nat) (near : offset < 2 ^ 31) (bound : target < 2 ^ 31) :
    Reader.Reads (readBranch offset) (Assembler.i32 ((target : Int) - offset)) target := by
  refine (Reader.reads_i32 (Int32.ofInt ((target : Int) - offset))).last ?_
  rw [narrow_distance _ (by omega) (by omega)]
  exact Reader.reads_lift _ _ (branch_target_distance offset target)

theorem reads_short_branch (op : Opcode) (offset target : Nat) (short : isShortBranch op = true)
    (least : -32768 ≤ (target : Int) - offset) (most : (target : Int) - offset ≤ 32767) :
    Reader.Reads (readTail pool offset op) (Assembler.i16 ((target : Int) - offset))
      ⟨offset, op, .jump target⟩ := by
  have distance : (Int16.ofInt ((target : Int) - offset)).toInt = (target : Int) - offset :=
    Int16.toInt_ofInt_of_le (by omega) (by omega)
  simp only [readTail]
  rw [short, if_pos rfl]
  refine (Reader.reads_i16 (Int16.ofInt ((target : Int) - offset))).last ?_
  rw [distance]
  exact (Reader.reads_lift _ _ (branch_target_distance offset target)).last (Reader.reads_pure _)

theorem reads_far_branch (op : Opcode) (offset target : Nat) (far : Assembler.isWideBranch op = true)
    (near : offset < 2 ^ 31) (bound : target < 2 ^ 31) :
    Reader.Reads (readTail pool offset op) (Assembler.i32 ((target : Int) - offset))
      ⟨offset, op, .jump target⟩ := by
  have notShort := (kinds op).far far
  simp only [Assembler.isWideBranch] at far
  simp only [readTail]
  rw [notShort, if_neg Bool.false_ne_true, if_pos far]
  exact (reads_branch offset target near bound).last (Reader.reads_pure _)

theorem reads_wide_slot (op : Opcode) (slot : UInt16) (offset : Nat) (takes : takesSlot op = true) :
    Reader.Reads (readTail pool offset Opcode.wide) (op :: Bytes.u16 slot)
      ⟨offset, op, .ready (.var slot)⟩ := by
  have read : Reader.Reads (readWide offset) (op :: Bytes.u16 slot) (op, .ready (.var slot)) := by
    refine (Reader.reads_u8 op).bind ((Reader.reads_u16 slot).last ?_)
    rw [if_neg ((kinds op).slot takes).1, takes, if_pos rfl]
    exact Reader.reads_pure _
  exact read.last (Reader.reads_pure _)

theorem reads_wide_increment (slot : UInt16) (delta : Int16) (offset : Nat) :
    Reader.Reads (readTail pool offset Opcode.wide)
      (Opcode.iinc :: Bytes.u16 slot ++ Bytes.u16 delta.toUInt16)
      ⟨offset, Opcode.iinc, .ready (.increment slot delta)⟩ := by
  have read : Reader.Reads (readWide offset)
      (Opcode.iinc :: Bytes.u16 slot ++ Bytes.u16 delta.toUInt16)
      (Opcode.iinc, .ready (.increment slot delta)) := by
    refine (Reader.reads_u8 Opcode.iinc).bind ((Reader.reads_u16 slot).bind ?_)
    rw [if_pos rfl]
    exact (Reader.reads_i16 delta).last (Reader.reads_pure _)
  exact read.last (Reader.reads_pure _)

theorem reads_padding (offset : Nat) :
    Reader.Reads (Reader.skip (padding offset)) (List.replicate (padding offset) 0) () := by
  have read := Reader.reads_skip (List.replicate (padding offset) 0)
  rwa [List.length_replicate] at read

def distanceBytes (offset target : Nat) : List UInt8 := Assembler.i32 ((target : Int) - offset)

def caseBytes (offset : Nat) (c : Int32 × Nat) : List UInt8 :=
  Bytes.u32 c.1.toUInt32 ++ distanceBytes offset c.2

theorem reads_table_switch (offset otherwise : Nat) (low high : Int32) (targets : List Nat)
    (ordered : ¬high < low) (count : targets.length = (high.toInt - low.toInt + 1).toNat)
    (near : offset < 2 ^ 31) (bound : ∀ t ∈ otherwise :: targets, t < 2 ^ 31) :
    Reader.Reads (readTail pool offset Opcode.tableSwitch)
      (List.replicate (padding offset) 0 ++ (distanceBytes offset otherwise ++
        (Bytes.u32 low.toUInt32 ++ (Bytes.u32 high.toUInt32 ++
          targets.flatMap (distanceBytes offset)))))
      ⟨offset, Opcode.tableSwitch,
        .switch otherwise (targets.mapIdx fun i t => (low + Int32.ofNat i, t))⟩ := by
  have entries := Reader.reads_times (readBranch offset) targets (distanceBytes offset) id
    fun t member => reads_branch offset t near (bound t (List.mem_cons_of_mem _ member))
  rw [List.map_id, count] at entries
  refine Reader.Reads.last ?_ (Reader.reads_pure _)
  refine (reads_padding offset).bind ((reads_branch offset otherwise near
    (bound _ (List.mem_cons_self ..))).bind ((Reader.reads_i32 low).bind
      ((Reader.reads_i32 high).bind ?_)))
  rw [if_neg ordered]
  exact entries.last (Reader.reads_pure _)

theorem reads_lookup_switch (offset otherwise : Nat) (cases : List (Int32 × Nat))
    (few : cases.length < 2 ^ 31) (near : offset < 2 ^ 31) (boundOtherwise : otherwise < 2 ^ 31)
    (bound : ∀ c ∈ cases, c.2 < 2 ^ 31) :
    Reader.Reads (readTail pool offset Opcode.lookupSwitch)
      (List.replicate (padding offset) 0 ++ (distanceBytes offset otherwise ++
        (Assembler.i32 cases.length ++ cases.flatMap (caseBytes offset))))
      ⟨offset, Opcode.lookupSwitch, .switch otherwise cases⟩ := by
  have count : (Int32.ofInt cases.length).toInt.toNat = cases.length := by
    rw [narrow_distance _ (by omega) (by omega), Int.toNat_natCast]
  have entries := Reader.reads_times (do
      let key ← Reader.i32
      let target ← readBranch offset
      return (key, target)) cases (caseBytes offset) id
    fun c member => (Reader.reads_i32 c.1).bind
      ((reads_branch offset c.2 near (bound c member)).last (Reader.reads_pure _))
  rw [List.map_id] at entries
  refine Reader.Reads.last ?_ (Reader.reads_pure _)
  refine (reads_padding offset).bind ((reads_branch offset otherwise near boundOtherwise).bind
    ((Reader.reads_i32 (Int32.ofInt cases.length)).bind ?_))
  rw [count]
  exact entries.last (Reader.reads_pure _)

end Operands

end Code

end JvmEdit
