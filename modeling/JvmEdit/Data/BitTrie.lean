set_option autoImplicit false

namespace JvmEdit

inductive BitTrie (α : Type)
  | empty
  | node (value : Option α) (zero one : BitTrie α)
  deriving Repr, Inhabited

namespace BitTrie

variable {α : Type}

def value : BitTrie α → Option α
  | empty => none
  | node value _ _ => value

def branch : BitTrie α → Bool → BitTrie α
  | empty, _ => empty
  | node _ zero _, false => zero
  | node _ _ one, true => one

def get? (t : BitTrie α) : List Bool → Option α
  | [] => t.value
  | bit :: key => (t.branch bit).get? key

def insert (t : BitTrie α) (v : α) : List Bool → BitTrie α
  | [] => node (some v) (t.branch false) (t.branch true)
  | false :: key => node t.value ((t.branch false).insert v key) (t.branch true)
  | true :: key => node t.value (t.branch false) ((t.branch true).insert v key)

-- The lowest `width` bits of a number, the lowest first.
def bits : Nat → Nat → List Bool
  | 0, _ => []
  | width + 1, n => (n % 2 == 1) :: bits width (n / 2)

theorem get?_empty (key : List Bool) : (empty : BitTrie α).get? key = none := by
  induction key with
  | nil => rfl
  | cons bit key ih => simpa only [get?, branch] using ih

theorem get?_insert (t : BitTrie α) (v : α) (key other : List Bool) :
    (t.insert v key).get? other = if key = other then some v else t.get? other := by
  induction key generalizing t other with
  | nil =>
      cases other with
      | nil => simp [insert, get?, value]
      | cons bit other => cases bit <;> simp [insert, get?, branch]
  | cons bit key ih =>
      cases other with
      | nil => cases bit <;> simp [insert, get?, value]
      | cons bit' other => cases bit <;> cases bit' <;> simp [insert, get?, branch, ih]

theorem length_bits (width n : Nat) : (bits width n).length = width := by
  induction width generalizing n with
  | zero => rfl
  | succ width ih => simp [bits, ih]

end BitTrie

end JvmEdit
