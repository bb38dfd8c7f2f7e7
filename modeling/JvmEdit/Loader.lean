import JvmEdit.Pass.Pipeline
import JvmEdit.Scan
set_option autoImplicit false

namespace JvmEdit

structure Loader where
  program : Program
  input : Option String := none
  scanned : Option ScanOutput := none
  pipeline : Pipeline := {}
  deriving Inhabited

inductive LaunchError
  | notScanned
  | pass (failure : PassFailure)
  deriving DecidableEq, Repr, Inhabited

namespace LaunchError

def message : LaunchError → String
  | notScanned => ScanError.uninitialized.message
  | pass failure => failure.message

end LaunchError

structure Launch where
  loader : Loader
  files : FileTree
  warnings : List Warning
  result : Except LaunchError PipelineReport

namespace Loader

def new (settings : Settings) : Loader := { program := .new settings }

def setInput (l : Loader) (input : String) : Loader := { l with input := some input }

def addPass (l : Loader) (pass : Pass) : Loader := { l with pipeline := l.pipeline.add pass }

-- The program that a scan fills: an empty one, once there was a scan before.
def cleared (l : Loader) : Program := if l.scanned.isSome then l.program.clear else l.program

-- Scans the input. A scan that fails keeps the account of the one before.
def scan [Libraries] (l : Loader) (files : FileTree) : Loader × Except ScanError (Logged ScanOutput) :=
  match l.input with
  | none => (l, .error .noInput)
  | some input =>
      match l.cleared.scan files input with
      | .error error => ({ l with program := l.cleared }, .error error)
      | .ok scanned =>
          ({ l with program := scanned.value.program, scanned := some scanned.value.output },
            .ok ((·.output) <$> scanned))

def launch [Libraries] (l : Loader) (files : FileTree) : Launch :=
  if l.scanned.isNone then ⟨l, files, [], .error .notScanned⟩
  else
    let run := l.pipeline.run l.program files
    { loader := { l with program := run.program, pipeline := run.pipeline }
      files := run.files
      warnings := run.warnings
      result := run.result.mapError .pass }

def artifacts (l : Loader) : List Artifact := ((l.scanned).map (·.artifacts)).getD []

-- The report on what passes changed and on the control flow of what they left.
def report (l : Loader) (changes : List Change) (invocation : Report.Invocation) : Json :=
  Report.build l.artifacts (Report.changeResults changes ++ Report.flowResults l.program) invocation

end Loader

end JvmEdit
