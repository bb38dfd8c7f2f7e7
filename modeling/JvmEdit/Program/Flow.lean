import JvmEdit.Flow.Blocks
import JvmEdit.Load.Builder
import JvmEdit.Program.Basic
import JvmEdit.Warning
set_option autoImplicit false

namespace JvmEdit

namespace Method

def withGraph [Libraries] (m : Method) : Method :=
  let (graph, flowError) := m.buildGraph
  { m with graph, flowError }

def collectLocals (m : Method) : Method :=
  { m with locals := m.locals.map (LocalVariable.collect m.code) }

end Method

namespace Program

def rebuildGraph [Libraries] (p : Program) (id : MethodId) : Logged Program :=
  let rebuilt := p.updateMethod id Method.withGraph
  match (rebuilt.method? id).bind (·.flowError) with
  | none => pure rebuilt
  | some e => do
      Logged.warn (.flowFailed ((rebuilt.methodKey? id).getD (toString id)) e)
      pure rebuilt

-- Brings methods whose code has changed up to date.
def refresh [Libraries] (p : Program) (ids : List MethodId) : Logged Program :=
  ids.foldlM (fun q id => (q.updateMethod id Method.collectLocals).rebuildGraph id) p

def flowAnnotations (s : Settings) (m : Method) : List Annotation :=
  let number := fun (n : Nat) => AnnotationValue.int (Int64.ofNat n)
  (if s.annotateComplexity && m.flowError.isNone then
    [.named "Complexity" [("Blocks", number m.graph.blocks.length),
      ("Edges", number m.graph.edges.length)]] else []) ++
  (if s.annotateTryCatchCount then
    [.named "TryCatchs" [("number", number m.tryRanges.length)]] else []) ++
  (if s.annotateLocals then
    m.locals.map fun v => .named "LocalVariable" [("name", .text v.name),
      ("References", number v.references.size)] else [])

def annotateFlow (p : Program) (id : MethodId) : Program :=
  p.updateMethod id fun m =>
    { m with annotations := m.annotations ++ flowAnnotations p.settings m }

def buildAll [Libraries] (p : Program) : Logged Program :=
  p.methodIds.foldlM (fun q id => do
    let built ← q.rebuildGraph id
    pure (built.annotateFlow id)) p

def flowFailures (p : Program) : List MethodId :=
  p.methodIds.filter fun id => (p.method? id).any (·.flowError.isSome)

end Program

end JvmEdit
