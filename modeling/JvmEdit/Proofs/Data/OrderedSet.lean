import JvmEdit.Data.OrderedSet
import Mathlib.Data.List.Sort
set_option autoImplicit false

namespace JvmEdit

namespace OrderedSet

variable {α : Type} [LT α]

def Sorted (s : OrderedSet α) : Prop := s.falling.Pairwise fun x y => y < x

theorem sorted_empty : (empty : OrderedSet α).Sorted := List.Pairwise.nil

variable [DecidableEq α]

theorem sorted_erase (s : OrderedSet α) (x : α) (sorted : s.Sorted) : (s.erase x).Sorted :=
  List.Pairwise.sublist List.filter_sublist sorted

section Build

variable [DecidableLT α]

theorem mem_foldl_insert (s : OrderedSet α) (xs : List α) (y : α) :
    y ∈ xs.foldl insert s ↔ y ∈ s ∨ y ∈ xs := by
  induction xs generalizing s with
  | nil => simp
  | cons x xs ih =>
      rw [List.foldl_cons, ih, mem_insert, List.mem_cons]
      constructor
      · rintro ((isX | old) | later)
        · exact Or.inr (Or.inl isX)
        · exact Or.inl old
        · exact Or.inr (Or.inr later)
      · rintro (old | isX | later)
        · exact Or.inl (Or.inr old)
        · exact Or.inl (Or.inl isX)
        · exact Or.inr later

theorem mem_of_list (xs : List α) (y : α) : y ∈ (ofList xs : OrderedSet α) ↔ y ∈ xs := by
  rw [ofList, mem_foldl_insert]
  exact or_iff_right (not_mem_empty y)

end Build

section Order

variable [IsStrictTotalOrder α (· < ·)]

omit [DecidableEq α] in
theorem eq_of_mem_iff (s t : OrderedSet α) (sorted : s.Sorted) (sorted' : t.Sorted)
    (same : ∀ x, x ∈ s ↔ x ∈ t) : s = t := by
  have : Std.Irrefl fun x y : α => y < x := ⟨fun x => irrefl_of (· < ·) x⟩
  have : Std.Antisymm fun x y : α => y < x := ⟨fun x y less more => absurd more (asymm_of (· < ·) less)⟩
  exact congrArg OrderedSet.mk (sorted.eq_of_mem_iff sorted' same)

variable [DecidableLT α]

theorem sorted_insert (s : OrderedSet α) (x : α) (sorted : s.Sorted) : (s.insert x).Sorted := by
  obtain ⟨ys⟩ := s
  change (place x ys).Pairwise fun x y => y < x
  induction ys with
  | nil => simp [place]
  | cons y ys ih =>
      have head := (List.pairwise_cons.mp sorted).1
      have tail := (List.pairwise_cons.mp sorted).2
      simp only [place]
      split
      · rename_i less
        refine List.pairwise_cons.mpr ⟨fun z member => ?_, sorted⟩
        rcases List.mem_cons.mp member with rfl | later
        · exact less
        · exact trans_of (· < ·) (head z later) less
      · rename_i notLess
        split
        · exact sorted
        · rename_i differ
          have less : x < y := by
            rcases trichotomous_of (· < ·) x y with less | same | more
            · exact less
            · exact absurd same.symm differ
            · exact absurd more notLess
          refine List.pairwise_cons.mpr ⟨fun z member => ?_, ih tail⟩
          rcases (mem_place x z ys).mp member with rfl | later
          · exact less
          · exact head z later

theorem sorted_of_list (xs : List α) : (ofList xs : OrderedSet α).Sorted :=
  List.foldlRecOn xs insert sorted_empty fun s sorted x _ => sorted_insert s x sorted

end Order

end OrderedSet

end JvmEdit
