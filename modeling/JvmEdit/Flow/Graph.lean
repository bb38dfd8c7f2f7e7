import JvmEdit.Ident
set_option autoImplicit false

namespace JvmEdit

structure Block where
  id : BlockId
  instructions : List InsnId
  deriving DecidableEq, Repr, Inhabited

namespace Block

def first? (b : Block) : Option InsnId := b.instructions.head?

def last? (b : Block) : Option InsnId := b.instructions.getLast?

def size (b : Block) : Nat := b.instructions.length

end Block

inductive EdgeKind
  | fallThrough
  | branch
  | exception
  deriving DecidableEq, Repr, Inhabited

namespace EdgeKind

def rank : EdgeKind → Nat
  | fallThrough => 0
  | branch => 1
  | exception => 2

def name : EdgeKind → String
  | fallThrough => "FallThrough"
  | branch => "Branch"
  | exception => "Exception"

end EdgeKind

structure FlowEdge where
  source : BlockId
  target : BlockId
  kind : EdgeKind
  -- The instruction whose execution moves control along the edge.
  cause : InsnId
  deriving DecidableEq, Repr, Inhabited

structure Graph where
  blocks : List Block := []
  edges : List FlowEdge := []
  deriving DecidableEq, Repr, Inhabited

namespace Graph

def isEmpty (g : Graph) : Bool := g.blocks.isEmpty

def block? (g : Graph) (id : BlockId) : Option Block := g.blocks[id.val]?

def successors (g : Graph) (id : BlockId) : List FlowEdge := g.edges.filter (·.source = id)

def predecessors (g : Graph) (id : BlockId) : List FlowEdge := g.edges.filter (·.target = id)

def exceptionEdges (g : Graph) : List FlowEdge := g.edges.filter (·.kind = .exception)

def hasEdge (g : Graph) (source target : BlockId) (kind : EdgeKind) : Bool :=
  g.edges.any fun e => e.source = source && e.target = target && e.kind = kind

def blockStartingWith? (g : Graph) (insn : InsnId) : Option Block :=
  g.blocks.find? (·.first? = some insn)

def blockEndingWith? (g : Graph) (insn : InsnId) : Option Block :=
  g.blocks.find? (·.last? = some insn)

def blockContaining? (g : Graph) (insn : InsnId) : Option Block :=
  g.blocks.find? (·.instructions.contains insn)

end Graph

end JvmEdit
