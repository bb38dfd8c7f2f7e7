import JvmEdit.Program.Basic
set_option autoImplicit false

namespace JvmEdit

inductive NodeKind
  | «class»
  | method
  | constructor
  | field
  | fieldRead
  | fieldWrite
  | methodReference
  | annotationItem
  | block
  deriving DecidableEq, Repr, Inhabited

namespace NodeKind

def name : NodeKind → String
  | .class => "Class"
  | method => "Method"
  | constructor => "Constructor"
  | field => "Field"
  | fieldRead => "FieldRead"
  | fieldWrite => "FieldWrite"
  | methodReference => "MethodReference"
  | annotationItem => "Annotation"
  | block => "Block"

def all : List NodeKind :=
  [.class, method, constructor, field, fieldRead, fieldWrite, methodReference, annotationItem, block]

def ofName? (text : String) : Option NodeKind := all.find? (·.name = text)

end NodeKind

inductive Owner
  | class (id : ClassId)
  | field (id : FieldId)
  | method (id : MethodId)
  deriving DecidableEq, Repr, Inhabited

namespace Owner

instance : ToString Owner := ⟨fun
  | .class id => s!"Class({id})"
  | .field id => s!"Field({id})"
  | .method id => s!"Method({id})"⟩

def annotations (p : Program) : Owner → List Annotation
  | .class id => ((p.class? id).map (·.annotations)).getD []
  | .field id => ((p.field? id).map (·.annotations)).getD []
  | .method id => ((p.method? id).map (·.annotations)).getD []

end Owner

inductive Node
  | class (id : ClassId)
  | method (id : MethodId)
  | constructor (id : MethodId)
  | field (id : FieldId)
  | fieldRead (ref : InsnRef)
  | fieldWrite (ref : InsnRef)
  | methodReference (ref : InsnRef)
  | annotationItem (owner : Owner) (index : Nat)
  | block (method : MethodId) (index : Nat)
  deriving DecidableEq, Repr, Inhabited

namespace Node

instance : ToString Node := ⟨fun
  | .class id => s!"Class({id})"
  | .method id => s!"Method({id})"
  | .constructor id => s!"Constructor({id})"
  | .field id => s!"Field({id})"
  | .fieldRead ref => s!"FieldRead({ref})"
  | .fieldWrite ref => s!"FieldWrite({ref})"
  | .methodReference ref => s!"MethodReference({ref})"
  | .annotationItem owner index => s!"Annotation \x7b owner: {owner}, index: {index} \x7d"
  | .block id index => s!"Block \x7b method: {id}, index: {index} \x7d"⟩

end Node

namespace NodeKind

-- The owners whose expansion makes up a traversal.
def owners (p : Program) : NodeKind → List Owner
  | .class => p.classIds.map .class
  | field => p.fieldIds.map .field
  | annotationItem => p.classIds.map .class ++ p.fieldIds.map .field ++ p.methodIds.map .method
  | _ => p.methodIds.map .method

def methodNodes (id : MethodId) (m : Method) : NodeKind → List Node
  | method => if m.isConstructor then [] else [.method id]
  | constructor => if m.isConstructor then [.constructor id] else []
  | fieldRead => m.fieldReads.map fun (insn, _) => .fieldRead ⟨id, insn⟩
  | fieldWrite => m.fieldWrites.map fun (insn, _) => .fieldWrite ⟨id, insn⟩
  | methodReference => m.calls.map fun (insn, _) => .methodReference ⟨id, insn⟩
  | block => (List.range m.graph.blocks.length).map (.block id)
  | _ => []

-- The nodes of one owner as the program now is.
def expand (p : Program) (kind : NodeKind) (owner : Owner) : List Node :=
  match kind, owner with
  | .class, .class id => if (p.class? id).isSome then [.class id] else []
  | field, .field id => if (p.field? id).isSome then [.field id] else []
  | annotationItem, owner =>
      (List.range (owner.annotations p).length).map fun index => .annotationItem owner index
  | kind, .method id =>
      match p.method? id with
      | some m => methodNodes id m kind
      | none => []
  | _, _ => []

end NodeKind

structure Nodes where
  kind : NodeKind
  owners : List Owner
  pending : List Node
  deriving DecidableEq, Repr, Inhabited

namespace Nodes

def start (p : Program) (kind : NodeKind) : Nodes := ⟨kind, kind.owners p, []⟩

-- The first owner that still has nodes, expanded.
def advance (p : Program) (kind : NodeKind) : List Owner → Option (Node × Nodes)
  | [] => none
  | owner :: owners =>
      match kind.expand p owner with
      | [] => advance p kind owners
      | node :: pending => some (node, ⟨kind, owners, pending⟩)

-- The next node, given the program as it is by now.
def next? (p : Program) (nodes : Nodes) : Option (Node × Nodes) :=
  match nodes.pending with
  | node :: pending => some (node, { nodes with pending })
  | [] => advance p nodes.kind nodes.owners

end Nodes

end JvmEdit
