set_option autoImplicit false

namespace JvmEdit

-- An instruction code. Codes from `0xca` on are unassigned; `0xff` marks a position.
abbrev Opcode := UInt8

namespace Opcode

abbrev iconstM1 : Opcode := 0x02
abbrev iconst0 : Opcode := 0x03
abbrev iconst5 : Opcode := 0x08
abbrev lconst0 : Opcode := 0x09
abbrev lconst1 : Opcode := 0x0a
abbrev fconst0 : Opcode := 0x0b
abbrev fconst2 : Opcode := 0x0d
abbrev dconst0 : Opcode := 0x0e
abbrev dconst1 : Opcode := 0x0f
abbrev bipush : Opcode := 0x10
abbrev sipush : Opcode := 0x11
abbrev ldc : Opcode := 0x12
abbrev ldcW : Opcode := 0x13
abbrev ldc2W : Opcode := 0x14
abbrev iload : Opcode := 0x15
abbrev aload : Opcode := 0x19
abbrev iload0 : Opcode := 0x1a
abbrev aload3 : Opcode := 0x2d
abbrev istore : Opcode := 0x36
abbrev astore : Opcode := 0x3a
abbrev istore0 : Opcode := 0x3b
abbrev astore3 : Opcode := 0x4e
abbrev nop : Opcode := 0x00
abbrev iinc : Opcode := 0x84
abbrev ifEq : Opcode := 0x99
abbrev ifNe : Opcode := 0x9a
abbrev ifLt : Opcode := 0x9b
abbrev ifGe : Opcode := 0x9c
abbrev ifGt : Opcode := 0x9d
abbrev ifLe : Opcode := 0x9e
abbrev ifIcmpEq : Opcode := 0x9f
abbrev ifIcmpNe : Opcode := 0xa0
abbrev ifIcmpLt : Opcode := 0xa1
abbrev ifIcmpGe : Opcode := 0xa2
abbrev ifIcmpGt : Opcode := 0xa3
abbrev ifIcmpLe : Opcode := 0xa4
abbrev ifAcmpEq : Opcode := 0xa5
abbrev ifAcmpNe : Opcode := 0xa6
abbrev goto : Opcode := 0xa7
abbrev jsr : Opcode := 0xa8
abbrev ret : Opcode := 0xa9
abbrev tableSwitch : Opcode := 0xaa
abbrev lookupSwitch : Opcode := 0xab
abbrev ireturn : Opcode := 0xac
abbrev returnVoid : Opcode := 0xb1
abbrev getStatic : Opcode := 0xb2
abbrev putStatic : Opcode := 0xb3
abbrev getField : Opcode := 0xb4
abbrev putField : Opcode := 0xb5
abbrev invokeVirtual : Opcode := 0xb6
abbrev invokeSpecial : Opcode := 0xb7
abbrev invokeStatic : Opcode := 0xb8
abbrev invokeInterface : Opcode := 0xb9
abbrev invokeDynamic : Opcode := 0xba
abbrev newObject : Opcode := 0xbb
abbrev newArray : Opcode := 0xbc
abbrev newRefArray : Opcode := 0xbd
abbrev throwRef : Opcode := 0xbf
abbrev checkCast : Opcode := 0xc0
abbrev instanceOf : Opcode := 0xc1
abbrev wide : Opcode := 0xc4
abbrev newMultiArray : Opcode := 0xc5
abbrev ifNull : Opcode := 0xc6
abbrev ifNonNull : Opcode := 0xc7
abbrev gotoW : Opcode := 0xc8
abbrev jsrW : Opcode := 0xc9

-- Carried by the position markers of an instruction stream; never stored in a class file.
abbrev label : Opcode := 0xff

-- A row of the instruction table: mnemonic, and the slots popped and pushed when they do not
-- depend on the operand.
inductive Row
  | fixed (name : String) (pops pushes : Nat)
  | operand (name : String)
  deriving DecidableEq, Repr

namespace Row

def name : Row → String
  | fixed name _ _ => name
  | operand name => name

def effect : Row → Option (Nat × Nat)
  | fixed _ pops pushes => some (pops, pushes)
  | operand _ => none

end Row

-- One row a code, from `0x00` to `0xc9`.
def table : Array Row := #[
  .fixed "nop" 0 0, .fixed "aconst_null" 0 1, .fixed "iconst_m1" 0 1, .fixed "iconst_0" 0 1,
  .fixed "iconst_1" 0 1, .fixed "iconst_2" 0 1, .fixed "iconst_3" 0 1, .fixed "iconst_4" 0 1,
  .fixed "iconst_5" 0 1, .fixed "lconst_0" 0 2, .fixed "lconst_1" 0 2, .fixed "fconst_0" 0 1,
  .fixed "fconst_1" 0 1, .fixed "fconst_2" 0 1, .fixed "dconst_0" 0 2, .fixed "dconst_1" 0 2,
  .fixed "bipush" 0 1, .fixed "sipush" 0 1, .operand "ldc", .operand "ldc_w", .operand "ldc2_w",
  .fixed "iload" 0 1, .fixed "lload" 0 2, .fixed "fload" 0 1, .fixed "dload" 0 2,
  .fixed "aload" 0 1, .fixed "iload_0" 0 1, .fixed "iload_1" 0 1, .fixed "iload_2" 0 1,
  .fixed "iload_3" 0 1, .fixed "lload_0" 0 2, .fixed "lload_1" 0 2, .fixed "lload_2" 0 2,
  .fixed "lload_3" 0 2, .fixed "fload_0" 0 1, .fixed "fload_1" 0 1, .fixed "fload_2" 0 1,
  .fixed "fload_3" 0 1, .fixed "dload_0" 0 2, .fixed "dload_1" 0 2, .fixed "dload_2" 0 2,
  .fixed "dload_3" 0 2, .fixed "aload_0" 0 1, .fixed "aload_1" 0 1, .fixed "aload_2" 0 1,
  .fixed "aload_3" 0 1, .fixed "iaload" 2 1, .fixed "laload" 2 2, .fixed "faload" 2 1,
  .fixed "daload" 2 2, .fixed "aaload" 2 1, .fixed "baload" 2 1, .fixed "caload" 2 1,
  .fixed "saload" 2 1, .fixed "istore" 1 0, .fixed "lstore" 2 0, .fixed "fstore" 1 0,
  .fixed "dstore" 2 0, .fixed "astore" 1 0, .fixed "istore_0" 1 0, .fixed "istore_1" 1 0,
  .fixed "istore_2" 1 0, .fixed "istore_3" 1 0, .fixed "lstore_0" 2 0, .fixed "lstore_1" 2 0,
  .fixed "lstore_2" 2 0, .fixed "lstore_3" 2 0, .fixed "fstore_0" 1 0, .fixed "fstore_1" 1 0,
  .fixed "fstore_2" 1 0, .fixed "fstore_3" 1 0, .fixed "dstore_0" 2 0, .fixed "dstore_1" 2 0,
  .fixed "dstore_2" 2 0, .fixed "dstore_3" 2 0, .fixed "astore_0" 1 0, .fixed "astore_1" 1 0,
  .fixed "astore_2" 1 0, .fixed "astore_3" 1 0, .fixed "iastore" 3 0, .fixed "lastore" 4 0,
  .fixed "fastore" 3 0, .fixed "dastore" 4 0, .fixed "aastore" 3 0, .fixed "bastore" 3 0,
  .fixed "castore" 3 0, .fixed "sastore" 3 0, .fixed "pop" 1 0, .fixed "pop2" 2 0,
  .fixed "dup" 1 2, .fixed "dup_x1" 2 3, .fixed "dup_x2" 3 4, .fixed "dup2" 2 4,
  .fixed "dup2_x1" 3 5, .fixed "dup2_x2" 4 6, .fixed "swap" 2 2, .fixed "iadd" 2 1,
  .fixed "ladd" 4 2, .fixed "fadd" 2 1, .fixed "dadd" 4 2, .fixed "isub" 2 1, .fixed "lsub" 4 2,
  .fixed "fsub" 2 1, .fixed "dsub" 4 2, .fixed "imul" 2 1, .fixed "lmul" 4 2, .fixed "fmul" 2 1,
  .fixed "dmul" 4 2, .fixed "idiv" 2 1, .fixed "ldiv" 4 2, .fixed "fdiv" 2 1, .fixed "ddiv" 4 2,
  .fixed "irem" 2 1, .fixed "lrem" 4 2, .fixed "frem" 2 1, .fixed "drem" 4 2, .fixed "ineg" 1 1,
  .fixed "lneg" 2 2, .fixed "fneg" 1 1, .fixed "dneg" 2 2, .fixed "ishl" 2 1, .fixed "lshl" 3 2,
  .fixed "ishr" 2 1, .fixed "lshr" 3 2, .fixed "iushr" 2 1, .fixed "lushr" 3 2, .fixed "iand" 2 1,
  .fixed "land" 4 2, .fixed "ior" 2 1, .fixed "lor" 4 2, .fixed "ixor" 2 1, .fixed "lxor" 4 2,
  .fixed "iinc" 0 0, .fixed "i2l" 1 2, .fixed "i2f" 1 1, .fixed "i2d" 1 2, .fixed "l2i" 2 1,
  .fixed "l2f" 2 1, .fixed "l2d" 2 2, .fixed "f2i" 1 1, .fixed "f2l" 1 2, .fixed "f2d" 1 2,
  .fixed "d2i" 2 1, .fixed "d2l" 2 2, .fixed "d2f" 2 1, .fixed "i2b" 1 1, .fixed "i2c" 1 1,
  .fixed "i2s" 1 1, .fixed "lcmp" 4 1, .fixed "fcmpl" 2 1, .fixed "fcmpg" 2 1, .fixed "dcmpl" 4 1,
  .fixed "dcmpg" 4 1, .fixed "ifeq" 1 0, .fixed "ifne" 1 0, .fixed "iflt" 1 0, .fixed "ifge" 1 0,
  .fixed "ifgt" 1 0, .fixed "ifle" 1 0, .fixed "if_icmpeq" 2 0, .fixed "if_icmpne" 2 0,
  .fixed "if_icmplt" 2 0, .fixed "if_icmpge" 2 0, .fixed "if_icmpgt" 2 0, .fixed "if_icmple" 2 0,
  .fixed "if_acmpeq" 2 0, .fixed "if_acmpne" 2 0, .fixed "goto" 0 0, .fixed "jsr" 0 1,
  .fixed "ret" 0 0, .fixed "tableswitch" 1 0, .fixed "lookupswitch" 1 0, .fixed "ireturn" 1 0,
  .fixed "lreturn" 2 0, .fixed "freturn" 1 0, .fixed "dreturn" 2 0, .fixed "areturn" 1 0,
  .fixed "return" 0 0, .operand "getstatic", .operand "putstatic", .operand "getfield",
  .operand "putfield", .operand "invokevirtual", .operand "invokespecial", .operand "invokestatic",
  .operand "invokeinterface", .operand "invokedynamic", .fixed "new" 0 1, .fixed "newarray" 1 1,
  .fixed "anewarray" 1 1, .fixed "arraylength" 1 1, .fixed "athrow" 1 0, .fixed "checkcast" 1 1,
  .fixed "instanceof" 1 1, .fixed "monitorenter" 1 0, .fixed "monitorexit" 1 0, .operand "wide",
  .operand "multianewarray", .fixed "ifnull" 1 0, .fixed "ifnonnull" 1 0, .fixed "goto_w" 0 0,
  .fixed "jsr_w" 0 1]

def row? (op : Opcode) : Option Row := table[op.toNat]?

def name (op : Opcode) : String :=
  if op = label then "label" else (op.row?.map Row.name).getD "<invalid>"

def ofName? (name : String) : Option Opcode :=
  if name = "label" then some label
  else (table.findIdx? (·.name = name)).map UInt8.ofNat

def isValid (op : Opcode) : Bool := op.toNat < table.size

def isReturn (op : Opcode) : Bool := ireturn ≤ op && op ≤ returnVoid

def isSwitch (op : Opcode) : Bool := op = tableSwitch || op = lookupSwitch

-- Control never reaches the next instruction.
def isExit (op : Opcode) : Bool := op.isReturn || op = throwRef || op = ret || op.isSwitch

def isUnconditionalBranch (op : Opcode) : Bool := op = goto || op = gotoW

def isSubroutineCall (op : Opcode) : Bool := op = jsr || op = jsrW

def isConditionalBranch (op : Opcode) : Bool :=
  (ifEq ≤ op && op ≤ ifAcmpNe) || op = ifNull || op = ifNonNull

def isLoad (op : Opcode) : Bool := iload ≤ op && op ≤ aload3

def isStore (op : Opcode) : Bool := istore ≤ op && op ≤ astore3

-- Slots popped and pushed; `none` for field, call, constant, `wide` and `multianewarray`
-- instructions and for codes outside the table.
def stackEffect (op : Opcode) : Option (Nat × Nat) := op.row?.bind Row.effect

theorem is_exit_of_is_return (op : Opcode) (returning : op.isReturn = true) : op.isExit = true := by
  simp [isExit, returning]

end Opcode

end JvmEdit
