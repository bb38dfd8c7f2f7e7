import JvmEdit.Program.Basic
set_option autoImplicit false

namespace JvmEdit

namespace Class

def extends? (c : Class) (name : String) : Bool := c.superName = some name

def implements (c : Class) (name : String) : Bool := c.interfaces.contains name

end Class

namespace Program

-- Applies `f` to the superclass and `g` to each interface of a class, where they are loaded.
def updateParents (p : Program) (id : ClassId) (f g : Class → Class) : Program :=
  match p.class? id with
  | none => p
  | some c =>
      let extended :=
        match c.superName.bind p.findClass? with
        | some parent => p.updateClass parent f
        | none => p
      c.interfaces.foldl (fun q name =>
        match q.findClass? name with
        | some parent => q.updateClass parent g
        | none => q) extended

def linkClass (p : Program) (id : ClassId) : Program :=
  p.updateParents id (fun c => { c with subclasses := c.subclasses.insert id })
    (fun c => { c with implementers := c.implementers.insert id })

def unlinkClass (p : Program) (id : ClassId) : Program :=
  p.updateParents id (fun c => { c with subclasses := c.subclasses.erase id })
    (fun c => { c with implementers := c.implementers.erase id })

def linkHierarchy (p : Program) : Program :=
  let cleared := p.classIds.foldl (fun q id =>
    q.updateClass id fun c => { c with subclasses := .empty, implementers := .empty }) p
  p.classIds.foldl linkClass cleared

def classesWhere (p : Program) (test : Class → Bool) : List ClassId :=
  p.classIds.filter fun id => (p.class? id).any test

-- Links a class under its current name: to its parents, and from the classes that name it.
def relinkClass (p : Program) (id : ClassId) : Program :=
  let linked := p.linkClass id
  match linked.className? id with
  | none => linked
  | some name =>
      let subclasses := .ofList (linked.classesWhere (·.extends? name))
      let implementers := .ofList (linked.classesWhere (·.implements name))
      linked.updateClass id fun c => { c with subclasses, implementers }

end Program

end JvmEdit
