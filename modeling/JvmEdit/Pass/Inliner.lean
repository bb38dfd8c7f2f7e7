import JvmEdit.Decimal.Shortest
import JvmEdit.Pass.Work
import JvmEdit.Text.Quoted
set_option autoImplicit false

namespace JvmEdit

namespace Constant

def show? : Constant → Option String
  | int value => some s!"Int({value})"
  | float bits => some s!"Float({Decimal.single.render bits.toNat})"
  | long value => some s!"Long({value})"
  | double bits => some s!"Double({Decimal.double.render bits.toNat})"
  | string text => some s!"String({Text.quote text})"
  | _ => none

end Constant

namespace Inliner

structure Store where
  push : InsnId
  put : InsnId
  name : String
  value : Constant
  deriving DecidableEq, Repr, Inhabited

-- The instructions that push a number without an operand.
def smallConstants : List (Opcode × Constant) :=
  [(Opcode.iconstM1, .int (-1)), (0x03, .int 0), (0x04, .int 1), (0x05, .int 2), (0x06, .int 3),
    (0x07, .int 4), (Opcode.iconst5, .int 5), (Opcode.lconst0, .long 0), (Opcode.lconst1, .long 1),
    (Opcode.fconst0, .float 0), (0x0c, .float 0x3f800000), (Opcode.fconst2, .float 0x40000000),
    (Opcode.dconst0, .double 0), (Opcode.dconst1, .double 0x3ff0000000000000)]

def pushed? (i : Instruction) : Option Constant :=
  match i.operand with
  | .simple => (smallConstants.find? (·.1 = i.opcode)).map (·.2)
  | .int value =>
      if i.opcode = Opcode.bipush || i.opcode = Opcode.sipush then some (.int value) else none
  | .constant value =>
      match value with
      | .int _ | .float _ | .long _ | .double _ | .string _ => some value
      | _ => none
  | _ => none

-- A store of a constant into a static field of `owner`.
def store? (owner : String) (push put : Instruction) : Option Store :=
  match put.operand with
  | .field use =>
      if put.opcode = Opcode.putStatic && use.owner = owner then
        (pushed? push).map fun value => ⟨push.id, put.id, use.name, value⟩
      else none
  | _ => none

def stores (owner : String) (code : List Instruction) : List Store :=
  (code.zip (code.drop 1)).filterMap fun (push, put) => store? owner push put

-- Whether a field of this type can hold the constant by itself.
def fits (value : Constant) (descriptor : String) : Bool :=
  match value with
  | .int _ => ["I", "S", "B", "C", "Z"].contains descriptor
  | .long _ => descriptor = "J"
  | .float _ => descriptor = "F"
  | .double _ => descriptor = "D"
  | .string _ => descriptor = "Ljava/lang/String;"
  | _ => false

def isFoldable (value : Constant) (f : Field) : Bool :=
  f.access.isStatic && f.access.isFinal && f.value.isNone && f.references.size = 1 &&
    fits value f.descriptor

def fold [Libraries] (owner : String) (initializer : MethodId) (store : Store) : Work Unit := do
  let context ← get
  match context.program.findField? owner store.name with
  | none => return
  | some id =>
      if (context.program.field? id).any (isFoldable store.value) then
        match context.fieldTarget? id with
        | none => return
        | some target =>
            Work.edit fun c => do
              let shortened ← c.program.deleteInstructions initializer [store.push, store.put]
              return c.accept (Prod.fst <$> shortened)
            modify fun c =>
              { c with program := c.program.updateField id fun f => { f with value := some store.value } }
            let shown := (store.value.show?).getD ""
            Work.record (some target) s!"inlined constant {shown}"

def visit [Libraries] (id : ClassId) : Work Unit := do
  let p ← Work.program
  match p.className? id, p.methodByName? id "<clinit>" with
  | some owner, some initializer =>
      let code := ((p.method? initializer).map fun m => m.code.toList).getD []
      (stores owner code).forM (fold owner initializer)
  | _, _ => return

end Inliner

end JvmEdit
