import JvmEdit.Program.Basic
set_option autoImplicit false

namespace JvmEdit

namespace Program

def rootClass : String := "java/lang/Object"

-- Methods of the root class that others may override.
def rootMethods : List (String × String) :=
  [("equals", "(Ljava/lang/Object;)Z"), ("hashCode", "()I"), ("toString", "()Ljava/lang/String;"),
    ("clone", "()Ljava/lang/Object;"), ("finalize", "()V")]

def parentNames (p : Program) (id : ClassId) : List String :=
  ((p.class? id).map fun c => c.superName.toList ++ c.interfaces).getD []

def children (p : Program) (id : ClassId) : List ClassId :=
  ((p.class? id).map fun c => c.subclasses.toList ++ c.implementers.toList).getD []

def discover (found : OrderedSet ClassId) (waiting : List ClassId) :
    List ClassId → OrderedSet ClassId × List ClassId
  | [] => (found, waiting)
  | id :: ids =>
      if found.contains id then discover found waiting ids
      else discover (found.insert id) (id :: waiting) ids

-- Everything reached from the waiting classes in at most `fuel` visits.
def closure (next : ClassId → List ClassId) (found : OrderedSet ClassId) :
    List ClassId → Nat → OrderedSet ClassId
  | [], _ => found
  | _, 0 => found
  | id :: waiting, fuel + 1 =>
      let (found, waiting) := discover found waiting (next id)
      closure next found waiting fuel

-- Each class is visited at most once after it is found, and the start once more.
def reach (p : Program) (next : ClassId → List ClassId) (id : ClassId) : OrderedSet ClassId :=
  closure next .empty [id] (p.classes.size + 1)

def ancestors (p : Program) (id : ClassId) : OrderedSet ClassId :=
  p.reach (fun c => (p.parentNames c).filterMap p.findClass?) id

def descendants (p : Program) (id : ClassId) : OrderedSet ClassId := p.reach p.children id

-- Whether a supertype other than the root class is not loaded, at any distance.
def hasUnknownAncestor (p : Program) (id : ClassId) : Bool :=
  (id :: (p.ancestors id).toList).any fun c =>
    (p.parentNames c).any fun name => (p.findClass? name).isNone && name ≠ rootClass

def declares (p : Program) (name descriptor : String) (id : ClassId) : Bool :=
  (p.className? id).any fun owner => (p.findMethod? owner name descriptor).isSome

-- Whether dispatch could depend on a method's name: the method overrides or is overridden by a
-- loaded one, overrides one of the root class, or has a supertype that is not loaded.
def inOverrideFamily (p : Program) (id : MethodId) : Bool :=
  match p.method? id with
  | none => false
  | some m =>
      if m.access.isStatic || m.name.startsWith "<" then false
      else
        rootMethods.contains (m.name, m.descriptor) || p.hasUnknownAncestor m.owner ||
          (p.ancestors m.owner).toList.any (p.declares m.name m.descriptor) ||
          (p.descendants m.owner).toList.any (p.declares m.name m.descriptor)

def isEntryPoint (p : Program) (id : MethodId) : Bool :=
  (p.method? id).any fun m =>
    m.name = "main" && m.descriptor = "([Ljava/lang/String;)V" && m.access.isStatic

end Program

end JvmEdit
