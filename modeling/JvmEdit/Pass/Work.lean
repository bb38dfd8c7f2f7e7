import JvmEdit.Pass.Context
set_option autoImplicit false

namespace JvmEdit

inductive PassFault
  | edit (error : EditError)
  | notCreated (path : String)
  | notAdded (entry archive : String)
  | notWritten (path : String)
  | stopped (reason : String)
  deriving DecidableEq, Repr, Inhabited

namespace PassFault

def message : PassFault → String
  | edit error => error.message
  | notCreated path => s!"failed to create {path}"
  | notAdded entry archive => s!"failed to add {entry} to {archive}"
  | notWritten path => s!"failed to write {path}"
  | stopped reason => reason

end PassFault

abbrev Work (α : Type) := ExceptT PassFault (StateM PassContext) α

namespace Work

def program : Work Program := return (← get).program

-- An edit that leaves everything as it was when it is refused.
def edit (f : PassContext → Except EditError PassContext) : Work Unit := do
  match f (← get) with
  | .ok context => set context
  | .error error => throw (.edit error)

def record (target : Option ChangeTarget) (message : String) : Work Unit := do
  match target with
  | some target => modify (·.record target message)
  | none => pure ()

end Work

end JvmEdit
