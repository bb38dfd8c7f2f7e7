import JvmEdit.Json.Value
import JvmEdit.Pass.Context
import JvmEdit.Program.Flow
set_option autoImplicit false

namespace JvmEdit

structure Artifact where
  uri : String
  length : Nat
  -- The archive an entry is from, by its place in the list.
  parent : Option Nat := none
  isTarget : Bool := false
  deriving DecidableEq, Repr, Inhabited

namespace Report

structure Invocation where
  arguments : List String
  isSuccessful : Bool
  deriving DecidableEq, Repr, Inhabited

inductive Place
  | logical (name kind : String)
  | file (uri : String)
  deriving DecidableEq, Repr, Inhabited

structure Result where
  rule : String
  message : String
  place : Place
  deriving DecidableEq, Repr, Inhabited

def schema : String := "https://schemastore.azurewebsites.net/schemas/json/sarif-2.1.0.json"
def version : String := "2.1.0"
def toolName : String := "bytetwist"
def toolUri : String := "https://github.com/bytetwist/bytetwist"

-- The rule under which a failed analysis of control flow is listed.
def flowRule : String := "CFG_ANALYSIS"

def methodPlace (owner name descriptor : String) : Place :=
  .logical s!"{owner}.{name}{descriptor}" "function"

def placeOf : ChangeTarget → Place
  | .class name => .logical name "type"
  | .field owner name => .logical s!"{owner}.{name}" "member"
  | .method owner name descriptor => methodPlace owner name descriptor
  | .file path => .file path

def changeResults (changes : List Change) : List Result :=
  changes.map fun c => ⟨c.pass, c.message, placeOf c.target⟩

-- One result for each method whose last analysis failed.
def flowResults (p : Program) : List Result :=
  p.methods.values.filterMap fun m =>
    m.flowError.bind fun error =>
      (p.className? m.owner).map fun owner =>
        ⟨flowRule, s!"Control flow analysis failed: {error.message}",
          methodPlace owner m.name m.descriptor⟩

-- The rules that results fall under, sorted, each once.
def rules (results : List Result) : List String :=
  (results.foldl (fun t r => t.insert r.rule ()) (Table.empty : Table String Unit)).keys

def Place.toJson : Place → Json
  | logical name kind =>
      .object [("logicalLocations",
        .array [.object [("name", .string name), ("kind", .string kind)]])]
  | file uri =>
      .object [("physicalLocation",
        .object [("artifactLocation", .object [("uri", .string uri)])])]

def Result.toJson (r : Result) : Json :=
  .object [("ruleId", .string r.rule), ("message", .object [("text", .string r.message)]),
    ("locations", .array [r.place.toJson])]

def Invocation.toJson (i : Invocation) : Json :=
  .object [("arguments", .array (i.arguments.map .string)),
    ("commandLine", .string (String.intercalate " " i.arguments)),
    ("executionSuccessful", .bool i.isSuccessful)]

def driver (results : List Result) : Json :=
  .ofMembers [("name", some (.string toolName)), ("informationUri", some (.string toolUri)),
    ("rules", Json.nonEmpty ((rules results).map fun id => .object [("id", .string id)]))]

end Report

namespace Artifact

def toJson (a : Artifact) : Json :=
  .ofMembers [("location", some (.object [("uri", .string a.uri)])),
    ("length", some (.number a.length)), ("parentIndex", a.parent.map fun n => .number n),
    ("roles", if a.isTarget then some (.array [.string "analysisTarget"]) else none)]

end Artifact

namespace Report

def build (artifacts : List Artifact) (results : List Result) (invocation : Invocation) : Json :=
  .object [("$schema", .string schema), ("version", .string version),
    ("runs", .array [.ofMembers [
      ("tool", some (.object [("driver", driver results)])),
      ("invocations", some (.array [invocation.toJson])),
      ("results", some (.array (results.map Result.toJson))),
      ("artifacts", Json.nonEmpty (artifacts.map Artifact.toJson))]])]

end Report

end JvmEdit
