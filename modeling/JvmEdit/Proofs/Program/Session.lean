import JvmEdit.Proofs.Program.Edits
import JvmEdit.Proofs.Program.Key
set_option autoImplicit false

namespace JvmEdit

structure Session where
  program : Program
  builders : List Builder := []

inductive SessionAction
  | openBuilder
  | visit (builder : Nat) (event : ClassEvent)
  | renameClass (id : ClassId) (new : String)
  | edit (edit : MemberEdit)
  | clear
  deriving DecidableEq, Repr

-- The names that an event declares have no dot.
def ClassEvent.Plain : ClassEvent → Prop
  | .header h => Undotted h.name
  | .field d => Undotted d.name
  | .method d => Undotted d.name
  | _ => True

instance ClassEvent.decidablePlain : (event : ClassEvent) → Decidable event.Plain
  | .header h => inferInstanceAs (Decidable (Undotted h.name))
  | .field d => inferInstanceAs (Decidable (Undotted d.name))
  | .method d => inferInstanceAs (Decidable (Undotted d.name))
  | .newLabel | .instruction .. | .tryRange _ | .localVariable _ | .methodEnd .. | .classEnd =>
      inferInstanceAs (Decidable True)

-- The new name that an edit gives, if it gives one, has no dot.
def MemberEdit.Plain : MemberEdit → Prop
  | .renameField _ new => Undotted new
  | .renameMethod _ new => Undotted new
  | _ => True

instance MemberEdit.decidablePlain : (e : MemberEdit) → Decidable e.Plain
  | .renameField _ new | .renameMethod _ new => inferInstanceAs (Decidable (Undotted new))
  | .moveField .. | .moveMethod .. | .deleteField _ | .deleteMethod _ | .deleteInstructions .. =>
      inferInstanceAs (Decidable True)

-- Every name that an action declares or gives has no dot.
def SessionAction.Plain : SessionAction → Prop
  | .visit _ event => event.Plain
  | .renameClass _ new => Undotted new
  | .edit e => e.Plain
  | _ => True

instance SessionAction.decidablePlain : (action : SessionAction) → Decidable action.Plain
  | .visit _ event => inferInstanceAs (Decidable event.Plain)
  | .renameClass _ new => inferInstanceAs (Decidable (Undotted new))
  | .edit e => inferInstanceAs (Decidable e.Plain)
  | .openBuilder | .clear => inferInstanceAs (Decidable True)

namespace Session

def start (settings : Settings) : Session := { program := .new settings }

-- A builder sees the program as it is now, whoever has changed it since its last event.
def visit (s : Session) (builder : Nat) (event : ClassEvent) : Session :=
  match s.builders[builder]? with
  | none => s
  | some b =>
      let stepped := { b with program := s.program }.step event
      ⟨stepped.program, s.builders.set builder stepped⟩

-- A refused action leaves the session as it was.
def act [Libraries] (s : Session) : SessionAction → Session
  | .openBuilder => { s with builders := s.builders ++ [.new s.program] }
  | .visit builder event => s.visit builder event
  | .renameClass id new =>
      match s.program.renameClass id new with
      | .ok p => { s with program := p }
      | .error _ => s
  | .edit e => { s with program := s.program.perform e }
  | .clear => { s with program := s.program.clear }

def run [Libraries] (s : Session) (actions : List SessionAction) : Session := actions.foldl act s

end Session

end JvmEdit
