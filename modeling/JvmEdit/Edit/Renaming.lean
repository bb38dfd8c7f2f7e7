import JvmEdit.Descriptor.Signature
import JvmEdit.Entity
set_option autoImplicit false

namespace JvmEdit

structure Renaming where
  old : String
  new : String
  deriving DecidableEq, Repr

namespace Renaming

-- In a descriptor or a generic signature.
def descriptor (r : Renaming) (text : String) : String :=
  (Signature.rename? text r.old r.new).getD text

-- In an internal class name or an array descriptor.
def internal (r : Renaming) (name : String) : String :=
  (ClassName.rename? name r.old r.new).getD name

def constant (r : Renaming) : Constant → Constant
  | .classRef name => .classRef (r.internal name)
  | .methodType descriptor => .methodType (r.descriptor descriptor)
  | .methodHandle kind owner name descriptor isInterface =>
      .methodHandle kind (r.internal owner) name (r.descriptor descriptor) isInterface
  | .dynamic name descriptor bootstrap => .dynamic name (r.descriptor descriptor) bootstrap
  | constant => constant

def operand (r : Renaming) : Operand → Operand
  | .field u => .field { u with owner := r.internal u.owner, descriptor := r.descriptor u.descriptor }
  | .call c => .call { c with owner := r.internal c.owner, descriptor := r.descriptor c.descriptor }
  | .dynamicCall c => .dynamicCall { c with descriptor := r.descriptor c.descriptor }
  | .type name => .type (r.internal name)
  | .multiArray name dimensions => .multiArray (r.internal name) dimensions
  | .constant value => .constant (r.constant value)
  | operand => operand

def instruction (r : Renaming) (i : Instruction) : Instruction :=
  { i with operand := r.operand i.operand }

def annotationText (r : Renaming) (a : Annotation) : Annotation :=
  { a with descriptor := r.descriptor a.descriptor }

def bootstrap (r : Renaming) (b : BootstrapMethod) : BootstrapMethod :=
  ⟨r.constant b.handle, b.arguments.map r.constant⟩

-- Everything but the class's own name.
def classHeader (r : Renaming) (c : Class) : Class :=
  { c with
    superName := c.superName.map r.internal
    interfaces := c.interfaces.map r.internal
    signature := c.signature.map r.descriptor
    annotations := c.annotations.map r.annotationText
    bootstrapMethods := c.bootstrapMethods.map r.bootstrap }

def fieldText (r : Renaming) (f : Field) : Field :=
  { f with
    descriptor := r.descriptor f.descriptor
    signature := f.signature.map r.descriptor
    value := f.value.map r.constant
    annotations := f.annotations.map r.annotationText }

def tryRange (r : Renaming) (t : TryRange) : TryRange :=
  { t with catchType := t.catchType.map r.internal }

def localVariable (r : Renaming) (v : LocalVariable) : LocalVariable :=
  { v with descriptor := r.descriptor v.descriptor, signature := v.signature.map r.descriptor }

def methodText (r : Renaming) (m : Method) : Method :=
  { m with
    descriptor := r.descriptor m.descriptor
    signature := m.signature.map r.descriptor
    exceptions := m.exceptions.map r.internal
    tryRanges := m.tryRanges.map r.tryRange
    locals := m.locals.map r.localVariable
    code := m.code.map r.instruction
    annotations := m.annotations.map r.annotationText }

end Renaming

end JvmEdit
