import JvmEdit.Pass.Work
set_option autoImplicit false

namespace JvmEdit

namespace DeadCode

def unreachable [Libraries] (m : Method) : List InsnId :=
  match m.analyse.result with
  | .error _ => []
  | .ok frames =>
      m.code.toList.zipIdx.filterMap fun (i, position) =>
        if !i.isLabel && !frames.isReachable position then some i.id else none

def visit [Libraries] (id : MethodId) : Work Unit := do
  let context ← get
  match context.program.method? id with
  | none => return
  | some m =>
      let dead := unreachable m
      if !dead.isEmpty then
        match context.program.deleteInstructions id dead with
        | .error error => throw (.edit error)
        | .ok shortened =>
            set (context.accept (Prod.fst <$> shortened))
            Work.record (context.methodTarget? id)
              s!"removed {shortened.value.2} unreachable instructions"

end DeadCode

end JvmEdit
