set_option autoImplicit false

namespace JvmEdit

structure Table (κ α : Type) where
  toList : List (κ × α) := []
  deriving DecidableEq, Repr

namespace Table

variable {κ α : Type} [DecidableEq κ]

instance : Inhabited (Table κ α) := ⟨⟨[]⟩⟩

def empty : Table κ α := ⟨[]⟩

def size (t : Table κ α) : Nat := t.toList.length

def keys (t : Table κ α) : List κ := t.toList.map Prod.fst

def values (t : Table κ α) : List α := t.toList.map Prod.snd

def find : List (κ × α) → κ → Option α
  | [], _ => none
  | (k, v) :: rows, key => if k = key then some v else find rows key

def get? (t : Table κ α) (key : κ) : Option α := find t.toList key

def contains (t : Table κ α) (key : κ) : Bool := (t.get? key).isSome

-- Puts a row at its place, in front of the first larger key, or over the row of its own key.
def place [LT κ] [DecidableLT κ] (key : κ) (value : α) : List (κ × α) → List (κ × α)
  | [] => [(key, value)]
  | (k, v) :: rows =>
      if k = key then (key, value) :: rows
      else if key < k then (key, value) :: (k, v) :: rows
      else (k, v) :: place key value rows

def insert [LT κ] [DecidableLT κ] (t : Table κ α) (key : κ) (value : α) : Table κ α :=
  ⟨place key value t.toList⟩

def erase (t : Table κ α) (key : κ) : Table κ α := ⟨t.toList.filter (fun row => row.1 ≠ key)⟩

def modify (t : Table κ α) (key : κ) (f : α → α) : Table κ α :=
  ⟨t.toList.map (fun row => if row.1 = key then (row.1, f row.2) else row)⟩

def keysOf [DecidableEq α] (t : Table κ α) (value : α) : List κ :=
  (t.toList.filter (fun row => row.2 = value)).map Prod.fst

-- Removes the row of `key` only if it holds `value`; tells whether it did.
def eraseIf [DecidableEq α] (t : Table κ α) (key : κ) (value : α) : Table κ α × Bool :=
  if t.get? key = some value then (t.erase key, true) else (t, false)

theorem get?_empty (key : κ) : (empty : Table κ α).get? key = none := rfl

theorem find_place [LT κ] [DecidableLT κ] (key other : κ) (value : α) (rows : List (κ × α)) :
    find (place key value rows) other = if key = other then some value else find rows other := by
  induction rows with
  | nil => simp [place, find]
  | cons row rows ih =>
      obtain ⟨k, v⟩ := row
      simp only [place]
      split
      · rename_i same
        subst same
        simp only [find]
        split <;> rfl
      · split
        · rfl
        · rename_i differ before
          simp only [find, ih]
          grind

theorem get?_insert [LT κ] [DecidableLT κ] (t : Table κ α) (key other : κ) (value : α) :
    (t.insert key value).get? other = if key = other then some value else t.get? other :=
  find_place key other value t.toList

theorem get?_insert_self [LT κ] [DecidableLT κ] (t : Table κ α) (key : κ) (value : α) :
    (t.insert key value).get? key = some value := by
  simp [get?_insert]

theorem find_filter (key other : κ) (rows : List (κ × α)) :
    find (rows.filter (fun row => row.1 ≠ key)) other = if key = other then none else find rows other := by
  induction rows with
  | nil => simp [find]
  | cons row rows ih =>
      obtain ⟨k, v⟩ := row
      by_cases gone : k = key
      · subst gone
        by_cases hit : k = other <;> simp_all [find]
      · by_cases hit : k = other
        · have differ : key ≠ other := fun eq => gone (hit.trans eq.symm)
          simp_all [find]
        · simp_all [find]

theorem get?_erase (t : Table κ α) (key other : κ) :
    (t.erase key).get? other = if key = other then none else t.get? other :=
  find_filter key other t.toList

theorem find_modify (key other : κ) (f : α → α) (rows : List (κ × α)) :
    find (rows.map (fun row => if row.1 = key then (row.1, f row.2) else row)) other =
      if key = other then (find rows other).map f else find rows other := by
  induction rows with
  | nil => simp [find]
  | cons row rows ih =>
      obtain ⟨k, v⟩ := row
      by_cases changed : k = key
      · subst changed
        by_cases hit : k = other <;> simp_all [find]
      · by_cases hit : k = other
        · have differ : key ≠ other := fun eq => changed (hit.trans eq.symm)
          simp_all [find]
        · simp_all [find]

theorem get?_modify (t : Table κ α) (key other : κ) (f : α → α) :
    (t.modify key f).get? other = if key = other then (t.get? other).map f else t.get? other :=
  find_modify key other f t.toList

theorem keys_modify (t : Table κ α) (key : κ) (f : α → α) : (t.modify key f).keys = t.keys := by
  simp only [keys, modify, List.map_map]
  apply List.map_congr_left
  intro row _
  by_cases changed : row.1 = key <;> simp [changed]

end Table

end JvmEdit
