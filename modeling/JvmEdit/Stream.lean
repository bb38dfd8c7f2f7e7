import JvmEdit.Instruction
set_option autoImplicit false

namespace JvmEdit

structure Stream where
  toList : List Instruction := []
  deriving DecidableEq, Repr, Inhabited

namespace Stream

def empty : Stream := ⟨[]⟩

def size (s : Stream) : Nat := s.toList.length

def isEmpty (s : Stream) : Bool := s.toList.isEmpty

def push (s : Stream) (i : Instruction) : Stream := ⟨s.toList ++ [i]⟩

def append (s t : Stream) : Stream := ⟨s.toList ++ t.toList⟩

def at? (s : Stream) (position : Nat) : Option Instruction := s.toList[position]?

def first? (s : Stream) : Option Instruction := s.toList.head?

def last? (s : Stream) : Option Instruction := s.toList.getLast?

def position? (s : Stream) (id : InsnId) : Option Nat := s.toList.findIdx? (·.id = id)

def get? (s : Stream) (id : InsnId) : Option Instruction := s.toList.find? (·.id = id)

def contains (s : Stream) (id : InsnId) : Bool := (s.position? id).isSome

def remove (s : Stream) (id : InsnId) : Stream := ⟨s.toList.eraseP (·.id = id)⟩

-- `none` when the anchor is not in the stream.
def insertBefore? (s : Stream) (anchor : InsnId) (i : Instruction) : Option Stream :=
  (s.position? anchor).map fun position => ⟨s.toList.insertIdx position i⟩

def insertAfter? (s : Stream) (anchor : InsnId) (i : Instruction) : Option Stream :=
  (s.position? anchor).map fun position => ⟨s.toList.insertIdx (position + 1) i⟩

-- Puts an instruction in the place of another.
def replace? (s : Stream) (old : InsnId) (i : Instruction) : Option Stream :=
  (s.position? old).map fun position => ⟨s.toList.set position i⟩

def update (s : Stream) (id : InsnId) (f : Instruction → Instruction) : Stream :=
  match s.position? id with
  | some position => ⟨s.toList.modify position f⟩
  | none => s

def map (s : Stream) (f : Instruction → Instruction) : Stream := ⟨s.toList.map f⟩

def retain (s : Stream) (keep : Instruction → Bool) : Stream := ⟨s.toList.filter keep⟩

def labelPosition? (s : Stream) (label : LabelId) : Option Nat :=
  s.toList.findIdx? (·.label? = some label)

def labelInsn? (s : Stream) (label : LabelId) : Option InsnId :=
  (s.toList.find? (·.label? = some label)).map (·.id)

-- The nearest earlier instruction that is not a label.
def previousReal? (s : Stream) (id : InsnId) : Option Instruction :=
  (s.position? id).bind fun position => (s.toList.take position).reverse.find? (!·.isLabel)

-- The first instruction at or after a label that is not a label itself.
def realAtLabel? (s : Stream) (label : LabelId) : Option Instruction :=
  (s.labelPosition? label).bind fun position => (s.toList.drop position).find? (!·.isLabel)

theorem to_list_retain (s : Stream) (keep : Instruction → Bool) :
    (s.retain keep).toList = s.toList.filter keep := rfl

end Stream

end JvmEdit
