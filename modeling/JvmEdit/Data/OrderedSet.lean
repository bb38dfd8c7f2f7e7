set_option autoImplicit false

namespace JvmEdit

structure OrderedSet (α : Type) where
  falling : List α := []
  deriving DecidableEq, Repr

namespace OrderedSet

variable {α : Type}

instance : Inhabited (OrderedSet α) := ⟨⟨[]⟩⟩

def empty : OrderedSet α := ⟨[]⟩

def toList (s : OrderedSet α) : List α := s.falling.reverse

def size (s : OrderedSet α) : Nat := s.falling.length

def isEmpty (s : OrderedSet α) : Bool := s.falling.isEmpty

instance : Membership α (OrderedSet α) := ⟨fun s x => x ∈ s.falling⟩

instance [DecidableEq α] (x : α) (s : OrderedSet α) : Decidable (x ∈ s) :=
  inferInstanceAs (Decidable (x ∈ s.falling))

def contains [DecidableEq α] (s : OrderedSet α) (x : α) : Bool := decide (x ∈ s)

def place [LT α] [DecidableLT α] [DecidableEq α] (x : α) : List α → List α
  | [] => [x]
  | y :: ys => if y < x then x :: y :: ys else if y = x then y :: ys else y :: place x ys

def insert [LT α] [DecidableLT α] [DecidableEq α] (s : OrderedSet α) (x : α) : OrderedSet α :=
  ⟨place x s.falling⟩

def erase [DecidableEq α] (s : OrderedSet α) (x : α) : OrderedSet α :=
  ⟨s.falling.filter (· ≠ x)⟩

def filter (s : OrderedSet α) (keep : α → Bool) : OrderedSet α := ⟨s.falling.filter keep⟩

def ofList [LT α] [DecidableLT α] [DecidableEq α] (xs : List α) : OrderedSet α :=
  xs.foldl insert empty

theorem mem_def (s : OrderedSet α) (x : α) : x ∈ s ↔ x ∈ s.falling := Iff.rfl

theorem mem_to_list (s : OrderedSet α) (x : α) : x ∈ s.toList ↔ x ∈ s := by
  simp [toList, mem_def]

theorem not_mem_empty (x : α) : x ∉ (empty : OrderedSet α) := by
  simp [mem_def, empty]

@[simp] theorem erase_empty [DecidableEq α] (x : α) : (empty : OrderedSet α).erase x = empty := rfl

theorem mem_place [LT α] [DecidableLT α] [DecidableEq α] (x y : α) (ys : List α) :
    y ∈ place x ys ↔ y = x ∨ y ∈ ys := by
  induction ys with
  | nil => simp [place]
  | cons z zs ih =>
      simp only [place]
      split
      · simp
      · split
        · rename_i same
          subst same
          simp
        · simp only [List.mem_cons, ih]
          grind

theorem mem_insert [LT α] [DecidableLT α] [DecidableEq α] (s : OrderedSet α) (x y : α) :
    y ∈ s.insert x ↔ y = x ∨ y ∈ s := mem_place x y s.falling

theorem mem_erase [DecidableEq α] (s : OrderedSet α) (x y : α) :
    y ∈ s.erase x ↔ y ∈ s ∧ y ≠ x := by
  simp [mem_def, erase]

end OrderedSet

end JvmEdit
