import JvmEdit.Libraries.Standard
import JvmEdit.Loader
import JvmEdit.Settings.Reader
set_option autoImplicit false

namespace JvmEdit

namespace CommandLine

def programName : String := "bytetwist"
def programVersion : String := "0.1.0"

structure Options where
  input : Option String := none
  settings : Option String := none
  threads : Option Nat := none
  passes : List String := []
  output : Option String := none
  jarOut : Option String := none
  classOut : Option String := none
  quiet : Bool := false
  timing : Bool := false
  deriving DecidableEq, Repr, Inhabited

inductive Request
  | run (input : String) (options : Options)
  | version
  | invalid
  deriving DecidableEq, Repr, Inhabited

-- Sets what may be given only once.
def once {α : Type} (old : Option α) (new : α) : Option (Option α) :=
  if old.isSome then none else some (some new)

def path (old : Option String) (new : String) : Option (Option String) :=
  if new = "" then none else once old new

-- A count of threads: digits, perhaps behind a plus, in 64 bits.
def threadCount? (text : String) : Option Nat :=
  let digits := if text.startsWith "+" then text.toList.drop 1 else text.toList
  if digits.isEmpty || !digits.all Char.isDigit then none
  else
    let value := digits.foldl (fun n c => n * 10 + (c.toNat - '0'.toNat)) 0
    if value < UInt64.size then some value else none

-- An option with a value. `none`: there is no such option; inside, `none`: the value is refused.
def valued? (name : String) (o : Options) : Option (String → Option Options) :=
  match name with
  | "input" => some fun v => (path o.input v).map fun input => { o with input }
  | "settings" => some fun v => (path o.settings v).map fun settings => { o with settings }
  | "threads" => some fun v =>
      ((threadCount? v).bind (once o.threads)).map fun threads => { o with threads }
  | "pass" => some fun v => some { o with passes := o.passes ++ [v] }
  | "output" => some fun v => (path o.output v).map fun output => { o with output }
  | "jar-out" => some fun v => (path o.jarOut v).map fun jarOut => { o with jarOut }
  | "class-out" => some fun v => (path o.classOut v).map fun classOut => { o with classOut }
  | _ => none

def flag? (name : String) (o : Options) : Option (Option Options) :=
  match name with
  | "quiet" => some (if o.quiet then none else some { o with quiet := true })
  | "timing" => some (if o.timing then none else some { o with timing := true })
  | _ => none

-- Whether an argument is read as an option and never as a value; a lone dash is a value.
def isOption (argument : String) : Bool := argument.startsWith "-" && argument ≠ "-"

def splitOption (argument : String) : String × Option String :=
  let (name, rest) := (argument.toList.drop 2).span (· ≠ '=')
  (String.ofList name, if rest.isEmpty then none else some (String.ofList (rest.drop 1)))

-- All arguments are read; what is required is looked at then.
def finish (o : Options) : Request :=
  match o.input with
  | some input => .run input o
  | none => .invalid

-- Reads arguments in order, as far as the first that is refused or asks for the version.
def parseFrom (o : Options) : List String → Request
  | [] => finish o
  | argument :: rest =>
      if argument = "--" then if rest.isEmpty then finish o else .invalid
      else if argument.startsWith "-V" || argument = "--version" then .version
      else if !argument.startsWith "--" then .invalid
      else
        let (name, joined) := splitOption argument
        match valued? name o, joined with
        | some accept, some value =>
            match accept value with
            | some o => parseFrom o rest
            | none => .invalid
        | some accept, none =>
            match rest with
            | [] => .invalid
            | value :: rest =>
                if isOption value then .invalid
                else
                  match accept value with
                  | some o => parseFrom o rest
                  | none => .invalid
        | none, some _ => .invalid
        | none, none =>
            match (flag? name o).join with
            | some o => parseFrom o rest
            | none => .invalid

def parse (arguments : List String) : Request := parseFrom {} arguments

structure Counts where
  classes : Nat
  artifacts : Nat
  changes : Nat
  deriving DecidableEq, Repr, Inhabited

structure Outcome where
  exitCode : UInt8 := 0
  printed : String := ""
  failure : Option String := none
  warnings : List Warning := []
  files : FileTree
  -- Known once the report is written.
  counts : Option Counts := none
  deriving DecidableEq, Repr, Inhabited

-- The pass that stands for all the others.
def allPasses : String := "all"

def expandPasses (requested : List String) : List String :=
  requested.flatMap fun id => if id = allPasses then Pass.defaultIds else [id]

def pass (id : String) : Except String Pass :=
  match Pass.byName? id with
  | some pass => .ok pass
  | none =>
      .error (s!"unknown pass `{id}`; expected one of: {allPasses}, " ++
        String.intercalate ", " Pass.defaultIds)

def loadSettings (files : FileTree) : Option String → Except String Settings
  | none => .ok {}
  | some path =>
      match (files.read? path).filter fun bytes => (Utf8.decode? bytes).isSome with
      | none => .error s!"failed to read {path}"
      | some bytes => (Settings.read bytes).mapError fun _ => s!"failed to parse {path}"

-- Settings from the file, with the number of threads from the command line before the file's.
def settings (files : FileTree) (o : Options) : Except String Settings := do
  let read ← loadSettings files o.settings
  return { read with workerThreads := o.threads <|> read.workerThreads }

def passes (o : Options) : Except String (List Pass) := do
  let requested ← (expandPasses o.passes).mapM pass
  return requested ++ (o.jarOut.map fun path => Pass.jarOutput path .empty).toList ++
    (o.classOut.map fun directory => Pass.classOutput directory 0).toList

def isPrinted (output : Option String) : Bool :=
  output.all fun path => Path.parts path = ["-"] && !Path.isAbsolute path

def deliver (o : Options) (files : FileTree) (warnings : List Warning) (counts : Counts)
    (text : String) : Outcome :=
  match if isPrinted o.output then none else o.output with
  | none => { printed := text, warnings, files, counts := some counts }
  | some path =>
      match files.write? path text.toUTF8.toList with
      | some files => { warnings, files, counts := some counts }
      | none => { exitCode := 1, failure := some s!"failed to open {path}", warnings, files }

def execute [Libraries] (arguments : List String) (input : String) (o : Options)
    (files : FileTree) : Outcome :=
  let fail := fun (message : String) (warnings : List Warning) (files : FileTree) =>
    ({ exitCode := 1, failure := some message, warnings, files } : Outcome)
  match settings files o with
  | .error message => fail message [] files
  | .ok settings =>
      match ((Loader.new settings).setInput input).scan files with
      | (_, .error _) => fail s!"failed to scan {input}" [] files
      | (loader, .ok scanned) =>
          match passes o with
          | .error message => fail message scanned.warnings files
          | .ok passes =>
              let launch := (passes.foldl Loader.addPass loader).launch files
              let warnings := scanned.warnings ++ launch.warnings
              match launch.result with
              | .error error => fail error.message warnings launch.files
              | .ok report =>
                  let text := (launch.loader.report report.changes ⟨arguments, true⟩).render ++ "\n"
                  let counts : Counts :=
                    { classes := scanned.value.classes.length,
                      artifacts := scanned.value.artifacts.length, changes := report.changes.length }
                  deliver o launch.files warnings counts text

def run [Libraries] (arguments : List String) (files : FileTree) : Outcome :=
  match parse arguments with
  | .invalid => { exitCode := 2, files }
  | .version => { printed := s!"{programName} {programVersion}\n", files }
  | .run input options => execute (programName :: arguments) input options files

end CommandLine

end JvmEdit
