import JvmEdit.Pass.DeadCode
import JvmEdit.Pass.Inliner
import JvmEdit.Pass.Jumps
import JvmEdit.Pass.Node
import JvmEdit.Pass.Output
import JvmEdit.Pass.Remover
import JvmEdit.Pass.Renamer
set_option autoImplicit false

namespace JvmEdit

inductive Pass
  | classRenamer (count : Nat)
  | fieldRenamer (count : Nat)
  | methodRenamer (count : Nat)
  | unusedFieldRemover (hidden : Option HiddenUses)
  | unusedMethodRemover (hidden : Option HiddenUses)
  | abstractMethodRemover (hidden : Option HiddenUses)
  | staticFieldInliner
  | jumpOptimizer
  | deadCodeRemover
  | jarOutput (path : String) (entries : Table String (List UInt8))
  | classOutput (directory : String) (written : Nat)
  -- Calls a function with the number of the visit, the first being 1.
  | oneOff (id : String) (kind : NodeKind) (visit : Nat → Node → Work Unit) (visits : Nat)

structure PassMetadata where
  id : String
  name : String
  description : String
  kind : NodeKind
  deriving DecidableEq, Repr, Inhabited

namespace Pass

def metadata : Pass → PassMetadata
  | classRenamer _ =>
      ⟨"class-renamer", "Class renamer",
        "Gives classes with very short or very long names sequential names", .class⟩
  | fieldRenamer _ =>
      ⟨"field-renamer", "Field renamer",
        "Gives fields with very short or very long names sequential names", .field⟩
  | methodRenamer _ =>
      ⟨"method-renamer", "Method renamer",
        "Gives methods with very short or very long names sequential names", .method⟩
  | unusedFieldRemover _ =>
      ⟨"unused-field-remover", "Unused field remover",
        "Deletes fields that no instruction reads or writes", .field⟩
  | unusedMethodRemover _ =>
      ⟨"unused-method-remover", "Unused method remover",
        "Deletes methods that are never invoked and cannot be dispatched to", .method⟩
  | abstractMethodRemover _ =>
      ⟨"abstract-method-remover", "Abstract method remover",
        "Deletes abstract class methods that are never invoked", .method⟩
  | staticFieldInliner =>
      ⟨"static-field-inliner", "Static field inliner",
        "Moves compile-time constant stores from static initializers into fields", .class⟩
  | jumpOptimizer =>
      ⟨"jump-optimizer", "Jump optimizer",
        "Shortcuts jumps through goto chains and gotos to returns", .method⟩
  | deadCodeRemover =>
      ⟨"dead-code-remover", "Dead code remover", "Deletes unreachable instructions", .method⟩
  | jarOutput _ _ =>
      ⟨"jar-output", "Jar output", "Writes the transformed classes into a jar file", .class⟩
  | classOutput _ _ =>
      ⟨"class-output", "Class output",
        "Writes the transformed classes as class files under a directory", .class⟩
  | oneOff id kind _ _ => ⟨id, id, "closure pass", kind⟩

-- The passes that can be asked for by their identity, in the order in which all of them run.
def defaults : List Pass :=
  [classRenamer 0, fieldRenamer 0, methodRenamer 0, unusedFieldRemover none,
    unusedMethodRemover none, abstractMethodRemover none, staticFieldInliner, jumpOptimizer,
    deadCodeRemover]

def defaultIds : List String := defaults.map (·.metadata.id)

def byName? (id : String) : Option Pass := defaults.find? (·.metadata.id = id)

-- Visits a node and answers the pass as it is afterwards. A node that the pass did not ask for
-- leaves all as it was.
def visit [Libraries] (pass : Pass) (node : Node) : Work Pass :=
  match pass, node with
  | classRenamer count, .class id => return classRenamer (← Renamer.visitClass count id)
  | fieldRenamer count, .field id => return fieldRenamer (← Renamer.visitField count id)
  | methodRenamer count, .method id => return methodRenamer (← Renamer.visitMethod count id)
  | unusedFieldRemover hidden, .field id =>
      return unusedFieldRemover (← Remover.visitField hidden id)
  | unusedMethodRemover hidden, .method id =>
      return unusedMethodRemover (← Remover.visitMethod hidden id)
  | abstractMethodRemover hidden, .method id =>
      return abstractMethodRemover (← Remover.visitAbstract hidden id)
  | staticFieldInliner, .class id => do
      Inliner.visit id
      return pass
  | jumpOptimizer, .method id => do
      Jumps.visit id
      return pass
  | deadCodeRemover, .method id => do
      DeadCode.visit id
      return pass
  | jarOutput path entries, .class id => return jarOutput path (← Output.visitArchive entries id)
  | classOutput directory written, .class id =>
      return classOutput directory (← Output.visitDirectory directory written id)
  | oneOff id kind call visits, node => do
      call (visits + 1) node
      return oneOff id kind call (visits + 1)
  | _, _ => return pass

-- The pass as a visit leaves it that starts in a context and fails.
def interrupted (pass : Pass) (node : Node) (c : PassContext) : Pass :=
  match pass, node with
  | classRenamer count, .class id =>
      let (package, _) := Renamer.splitPackage ((c.program.className? id).getD "")
      classRenamer (Renamer.tried (fun c new => c.renameClass id new) (fun n => s!"{package}Class{n}") count c)
  | fieldRenamer count, .field id =>
      fieldRenamer (Renamer.tried (fun c new => c.renameField id new) (fun n => s!"field{n}") count c)
  | methodRenamer count, .method id =>
      methodRenamer (Renamer.tried (fun c new => c.renameMethod id new) (fun n => s!"method{n}") count c)
  | unusedFieldRemover hidden, .field _ => unusedFieldRemover (some (Remover.uses hidden c.program))
  | unusedMethodRemover hidden, .method _ => unusedMethodRemover (some (Remover.uses hidden c.program))
  | abstractMethodRemover hidden, .method _ =>
      abstractMethodRemover (some (Remover.uses hidden c.program))
  | oneOff id kind call visits, _ => oneOff id kind call (visits + 1)
  | _, _ => pass

-- When this fails, the pass stays as it is.
def finish [Libraries] (pass : Pass) : Work Pass :=
  match pass with
  | jarOutput path entries => do
      Output.finishArchive path entries
      return jarOutput path .empty
  | classOutput directory written => do
      Output.finishDirectory directory written
      return pass
  | _ => return pass

end Pass

structure PassFailure where
  pass : String
  node : Option Node
  fault : PassFault
  deriving DecidableEq, Repr, Inhabited

namespace PassFailure

def message (f : PassFailure) : String :=
  match f.node with
  | some node => s!"pass {f.pass} failed on {node}"
  | none => s!"pass {f.pass} failed to finish"

-- The message and, behind it, the reason.
def chain (f : PassFailure) : String := f.message ++ ": " ++ f.fault.message

end PassFailure

structure PassSummary where
  id : String
  nodes : Nat
  changes : Nat
  deriving DecidableEq, Repr, Inhabited

structure PipelineReport where
  summaries : List PassSummary := []
  changes : List Change := []
  deriving DecidableEq, Repr, Inhabited

namespace Pass

-- A run that fails tells what the pass is left as.
abbrev Run (α : Type) := ExceptT (PassFailure × Pass) (StateM PassContext) α

-- Work at a node, or after the last one, whose failure ends the run.
def guarded {α : Type} (id : String) (node : Option Node) (left : PassContext → Pass)
    (work : Work α) : Run α :=
  ExceptT.mk do
    let before ← get
    match ← work.run with
    | .ok value => return .ok value
    | .error fault => return .error (⟨id, node, fault⟩, left before)

def visitOwner [Libraries] (id : String) (kind : NodeKind) (state : Pass × Nat) (owner : Owner) :
    Run (Pass × Nat) := do
  let nodes := kind.expand (← get).program owner
  nodes.foldlM (fun (pass, count) node => do
    return (← guarded id (some node) (pass.interrupted node) (pass.visit node), count + 1)) state

def run [Libraries] (pass : Pass) : Run (Pass × Nat) := do
  let metadata := pass.metadata
  let owners := metadata.kind.owners (← get).program
  let (pass, count) ← owners.foldlM (visitOwner metadata.id metadata.kind) (pass, 0)
  return (← guarded metadata.id none (fun _ => pass) pass.finish, count)

end Pass

structure Pipeline where
  passes : List Pass := []
  deriving Inhabited

-- What a run leaves behind. When it fails, the program keeps what was done so far.
structure PipelineRun where
  pipeline : Pipeline
  program : Program
  files : FileTree
  warnings : List Warning
  result : Except PassFailure PipelineReport

namespace Pipeline

def add (pipeline : Pipeline) (pass : Pass) : Pipeline := ⟨pipeline.passes ++ [pass]⟩

-- Runs passes in order, after some that are done.
def runFrom [Libraries] (finished : List Pass) (report : PipelineReport) (program : Program)
    (files : FileTree) (warnings : List Warning) : List Pass → PipelineRun
  | [] => ⟨⟨finished⟩, program, files, warnings, .ok report⟩
  | pass :: rest =>
      let id := pass.metadata.id
      let (result, context) := pass.run.run.run { pass := id, program, files }
      let warnings := warnings ++ context.warnings.reverse
      match result with
      | .error (failure, pass) =>
          ⟨⟨finished ++ pass :: rest⟩, context.program, context.files, warnings, .error failure⟩
      | .ok (pass, nodes) =>
          let report : PipelineReport :=
            { summaries := report.summaries ++ [⟨id, nodes, context.changes.length⟩],
              changes := report.changes ++ context.changes.reverse }
          runFrom (finished ++ [pass]) report context.program context.files warnings rest

def run [Libraries] (pipeline : Pipeline) (program : Program) (files : FileTree) : PipelineRun :=
  runFrom [] {} program files [] pipeline.passes

end Pipeline

end JvmEdit
