import JvmEdit.Pass.Override
import JvmEdit.Pass.Work
set_option autoImplicit false

namespace JvmEdit

namespace Renamer

-- A name of at most three characters, or of more than sixty.
def isUnhelpful (name : String) : Bool := name.length ≤ 3 || 60 < name.length

-- The count is held in 64 bits.
def countLimit : Nat := UInt64.size - 1

-- The first number after `count` at which an attempt does not meet a taken name.
def firstFree (attempt : Nat → Except EditError PassContext) (count : Nat) :
    Nat → Option (Nat × Except EditError PassContext)
  | 0 => none
  | left + 1 =>
      match attempt (count + 1) with
      | .error (.nameTaken _) => firstFree attempt (count + 1) left
      | result => some (count + 1, result)

-- The count after the attempts, whatever came of the last one.
def tried (rename : PassContext → String → Except EditError PassContext) (candidate : Nat → String)
    (count : Nat) (c : PassContext) : Nat :=
  match firstFree (fun n => rename c (candidate n)) count (countLimit - count) with
  | some (n, _) => n
  | none => count

def renameNext (rename : PassContext → String → Except EditError PassContext)
    (candidate : Nat → String) (count : Nat) : Work Nat := do
  let context ← get
  match firstFree (fun n => rename context (candidate n)) count (countLimit - count) with
  | some (n, result) => do
      Work.edit fun _ => result
      return n
  | none => return count

def splitPackage (name : String) : String × String :=
  let (simple, package) := name.toList.reverse.span (· ≠ '/')
  (String.ofList package.reverse, String.ofList simple.reverse)

def visitClass (count : Nat) (id : ClassId) : Work Nat := do
  match (← Work.program).className? id with
  | none => return count
  | some name =>
      let (package, simple) := splitPackage name
      if isUnhelpful simple then
        renameNext (fun c new => c.renameClass id new) (fun n => s!"{package}Class{n}") count
      else return count

def visitField (count : Nat) (id : FieldId) : Work Nat := do
  if ((← Work.program).field? id).any fun f => isUnhelpful f.name then
    renameNext (fun c new => c.renameField id new) (fun n => s!"field{n}") count
  else return count

-- Whether a method may get a new name, and has use for one.
def shouldRename (p : Program) (id : MethodId) : Bool :=
  ((p.method? id).any fun m => !m.access.isNative && isUnhelpful m.name) &&
    !p.isEntryPoint id && !p.inOverrideFamily id

def visitMethod (count : Nat) (id : MethodId) : Work Nat := do
  if shouldRename (← Work.program) id then
    renameNext (fun c new => c.renameMethod id new) (fun n => s!"method{n}") count
  else return count

end Renamer

end JvmEdit
