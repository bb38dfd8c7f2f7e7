import JvmEdit.Opcode
import JvmEdit.Ident
import JvmEdit.Constant
set_option autoImplicit false

namespace JvmEdit

inductive FieldMode
  | read
  | write
  deriving DecidableEq, Repr, Inhabited

namespace FieldMode

def name : FieldMode → String
  | read => "Read"
  | write => "Write"

end FieldMode

structure FieldUse where
  owner : String
  name : String
  descriptor : String
  mode : FieldMode
  isStatic : Bool
  deriving DecidableEq, Repr, Inhabited

inductive CallKind
  | virtual
  | interface
  | special
  | static
  deriving DecidableEq, Repr, Inhabited

namespace CallKind

def name : CallKind → String
  | virtual => "Virtual"
  | interface => "Interface"
  | special => "Special"
  | static => "Static"

end CallKind

structure Call where
  owner : String
  name : String
  descriptor : String
  isInterface : Bool
  kind : CallKind
  deriving DecidableEq, Repr, Inhabited

-- A call that the bootstrap method at that index of the class links when first run.
structure DynamicCall where
  name : String
  descriptor : String
  bootstrap : UInt16
  deriving DecidableEq, Repr, Inhabited

inductive Operand
  -- Marks a position; runs nothing.
  | label (label : LabelId)
  | simple
  | int (value : Int32)
  | var (slot : UInt16)
  | increment (slot : UInt16) (delta : Int16)
  | constant (value : Constant)
  | jump (target : LabelId)
  | switch (otherwise : LabelId) (cases : List (Int32 × LabelId))
  | field (use : FieldUse)
  | call (call : Call)
  | dynamicCall (call : DynamicCall)
  -- An internal class name or an array descriptor.
  | type (name : String)
  | newArray (code : UInt8)
  | multiArray (name : String) (dimensions : UInt8)
  deriving DecidableEq, Repr, Inhabited

namespace Operand

def label? : Operand → Option LabelId
  | label l => some l
  | _ => none

def isLabel (o : Operand) : Bool := o.label?.isSome

def referencedClass? : Operand → Option String
  | type name => some name
  | multiArray name _ => some name
  | constant (.classRef name) => some name
  | _ => none

-- The labels control can go to; a switch lists its default first.
def targets : Operand → List LabelId
  | jump target => [target]
  | switch otherwise cases => otherwise :: cases.map Prod.snd
  | _ => []

def mapLabels (f : LabelId → LabelId) : Operand → Operand
  | label l => label (f l)
  | jump target => jump (f target)
  | switch otherwise cases => switch (f otherwise) (cases.map fun c => (c.1, f c.2))
  | operand => operand

theorem targets_map_labels (f : LabelId → LabelId) (o : Operand) :
    (o.mapLabels f).targets = o.targets.map f := by
  cases o <;> simp [mapLabels, targets, Function.comp_def]

end Operand

structure Instruction where
  id : InsnId
  opcode : Opcode
  operand : Operand
  deriving DecidableEq, Repr, Inhabited

namespace Instruction

def label? (i : Instruction) : Option LabelId := i.operand.label?

def isLabel (i : Instruction) : Bool := i.operand.isLabel

def targets (i : Instruction) : List LabelId := i.operand.targets

def referencedClass? (i : Instruction) : Option String := i.operand.referencedClass?

end Instruction

end JvmEdit
