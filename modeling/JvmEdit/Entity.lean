import JvmEdit.Access
import JvmEdit.Annotation
import JvmEdit.Data.OrderedSet
import JvmEdit.Flow.Error
import JvmEdit.Flow.Graph
import JvmEdit.Stream
set_option autoImplicit false

namespace JvmEdit

structure Class where
  name : String
  superName : Option String
  interfaces : List String
  signature : Option String
  access : Flags
  version : UInt16
  bootstrapMethods : List BootstrapMethod
  annotations : List Annotation
  fields : List FieldId := []
  methods : List MethodId := []
  subclasses : OrderedSet ClassId := .empty
  implementers : OrderedSet ClassId := .empty
  typeReferences : OrderedSet InsnRef := .empty
  deriving DecidableEq, Repr, Inhabited

structure Field where
  owner : ClassId
  name : String
  descriptor : String
  signature : Option String
  access : Flags
  value : Option Constant
  annotations : List Annotation
  references : OrderedSet InsnRef := .empty
  deriving DecidableEq, Repr, Inhabited

inductive MethodKind
  | method
  | constructor
  | staticInitializer
  deriving DecidableEq, Repr, Inhabited

namespace MethodKind

def ofName (name : String) : MethodKind :=
  if name = "<init>" then constructor
  else if name = "<clinit>" then staticInitializer
  else method

def name : MethodKind → String
  | method => "Method"
  | constructor => "Constructor"
  | staticInitializer => "StaticInitializer"

end MethodKind

-- A range whose exceptions go to a handler; `catchType` is `none` when it catches everything.
structure TryRange where
  start : LabelId
  stop : LabelId
  handler : LabelId
  catchType : Option String
  deriving DecidableEq, Repr, Inhabited

structure LocalVariable where
  name : String
  descriptor : String
  signature : Option String
  start : LabelId
  stop : LabelId
  slot : UInt16
  references : OrderedSet InsnId := .empty
  deriving DecidableEq, Repr, Inhabited

structure Method where
  owner : ClassId
  name : String
  descriptor : String
  signature : Option String
  access : Flags
  -- Settled when the method is loaded; a new name does not change it.
  kind : MethodKind
  exceptions : List String
  annotations : List Annotation
  maxStack : Option UInt16 := none
  maxLocals : Option UInt16 := none
  code : Stream := .empty
  tryRanges : List TryRange := []
  locals : List LocalVariable := []
  invocations : OrderedSet InsnRef := .empty
  graph : Graph := {}
  flowError : Option FlowError := none
  deriving DecidableEq, Repr, Inhabited

namespace Method

-- Instance constructors and static initialisers keep the names the machine gives them.
def isConstructor (m : Method) : Bool := m.kind ≠ .method

def fieldUses (m : Method) : List (InsnId × FieldUse) :=
  m.code.toList.filterMap fun i =>
    match i.operand with
    | .field use => some (i.id, use)
    | _ => none

def fieldReads (m : Method) : List (InsnId × FieldUse) :=
  m.fieldUses.filter (·.2.mode = .read)

def fieldWrites (m : Method) : List (InsnId × FieldUse) :=
  m.fieldUses.filter (·.2.mode = .write)

def calls (m : Method) : List (InsnId × Call) :=
  m.code.toList.filterMap fun i =>
    match i.operand with
    | .call call => some (i.id, call)
    | _ => none

def typeUses (m : Method) : List (InsnId × String) :=
  m.code.toList.filterMap fun i => i.referencedClass?.map fun name => (i.id, name)

def tryBlock? (m : Method) (range : TryRange) : Option Block :=
  (m.code.labelInsn? range.start).bind m.graph.blockStartingWith?

def catchBlock? (m : Method) (range : TryRange) : Option Block :=
  (m.code.labelInsn? range.handler).bind m.graph.blockStartingWith?

end Method

end JvmEdit
