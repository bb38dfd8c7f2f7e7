import JvmEdit.Proofs.Index.Occurrences
import JvmEdit.Proofs.Pass.NewOverrides
import Mathlib.Data.List.TakeDrop
set_option autoImplicit false

namespace JvmEdit

namespace Renamer

section Names

theorem is_unhelpful_numbered (word : String) (n : Nat) (long : 3 ≤ word.length) (short : word.length ≤ 40)
    (limited : n ≤ countLimit) : isUnhelpful (word ++ toString n) = false := by
  have small : n < 10 ^ 20 := Nat.lt_of_le_of_lt limited (by decide)
  have digits : n.repr.length ≤ 20 := by
    rw [← String.length_toList, Nat.toList_repr]
    exact Nat.toDigits_length 10 n 20 (by decide) small
  have nonempty : 0 < n.repr.length := by
    rw [← String.length_toList, Nat.toList_repr]
    exact Nat.length_toDigits_pos
  have length : (word ++ toString n).length = word.length + n.repr.length := String.length_append ..
  simp only [isUnhelpful, Bool.or_eq_false_iff, decide_eq_false_iff_not]
  omega

theorem split_package_append (name word : String) (inside : '/' ∉ word.toList) :
    splitPackage ((splitPackage name).1 ++ word) = ((splitPackage name).1, word) := by
  have package : (splitPackage name).1.toList = (name.toList.reverse.dropWhile (· ≠ '/')).reverse := by
    rw [splitPackage, List.span_eq_takeWhile_dropWhile]
    exact String.toList_ofList
  have reversed : ((splitPackage name).1 ++ word).toList.reverse =
      word.toList.reverse ++ name.toList.reverse.dropWhile (· ≠ '/') := by
    rw [String.toList_append, List.reverse_append, package, List.reverse_reverse]
  have simple : ∀ c ∈ word.toList.reverse, decide (c ≠ '/') = true := by
    intro c member
    exact decide_eq_true fun same => inside (same ▸ List.mem_reverse.mp member)
  have stops := List.head?_dropWhile_not (fun c => decide (c ≠ '/')) name.toList.reverse
  generalize name.toList.reverse.dropWhile (fun c => decide (c ≠ '/')) = rest at package reversed stops
  have ends : rest.takeWhile (fun c => decide (c ≠ '/')) = [] ∧ rest.dropWhile (fun c => decide (c ≠ '/')) = rest := by
    cases rest with
    | nil => exact ⟨rfl, rfl⟩
    | cons c rest =>
        have isSlash : c = '/' := by simpa using stops
        simp [isSlash]
  rw [splitPackage, reversed, List.span_eq_takeWhile_dropWhile]
  simp only [List.takeWhile_append_of_pos simple, List.dropWhile_append_of_pos simple, ends.1, ends.2,
    List.append_nil, List.reverse_reverse, ← package, String.ofList_toList]

theorem split_package_subset (name : String) : ∀ c ∈ (splitPackage name).1.toList, c ∈ name.toList := by
  intro c member
  rw [splitPackage, List.span_eq_takeWhile_dropWhile] at member
  dsimp only at member
  rw [String.toList_ofList, List.mem_reverse] at member
  exact List.mem_reverse.mp ((List.dropWhile_sublist _).mem member)

theorem forall_numbered (word : String) (n : Nat) (holds : Char → Prop) (inWord : ∀ c ∈ word.toList, holds c)
    (digits : ∀ c, c.isDigit = true → holds c) : ∀ c ∈ (word ++ toString n).toList, holds c := by
  intro c member
  rw [String.toList_append, List.mem_append] at member
  rcases member with isInWord | inNumber
  · exact inWord c isInWord
  · rw [show toString n = n.repr from rfl, Nat.toList_repr] at inNumber
    exact digits c (Nat.isDigit_of_mem_toDigits (by decide) (by decide) inNumber)

section ClassNames

variable (name : String) (n : Nat)

-- The name that a class is to have instead of an unhelpful one.
def classCandidate : String := s!"{(splitPackage name).1}Class{n}"

theorem class_candidate_eq : classCandidate name n = ((splitPackage name).1 ++ "Class") ++ toString n := rfl

theorem undotted_class_candidate (plain : Undotted name) : Undotted (classCandidate name n) := by
  rw [class_candidate_eq]
  intro dot
  refine forall_numbered _ n (· ≠ '.') (fun c member => ?_) (fun c digit => ?_) '.' dot rfl
  · rw [String.toList_append, List.mem_append] at member
    rintro rfl
    rcases member with inPackage | inWord
    · exact plain (split_package_subset name '.' inPackage)
    · exact absurd inWord (by decide)
  · rintro rfl
    cases digit

theorem spellable_class_candidate : Renaming.Spellable ⟨name, classCandidate name n⟩ := by
  intro plain
  refine forall_numbered _ n (fun c => Signature.endsName c = false) (fun c member => ?_) (fun c digit => ?_)
  · rw [String.toList_append, List.mem_append] at member
    rcases member with inPackage | inWord
    · exact plain c (split_package_subset name c inPackage)
    · have each : "Class".toList.all (fun c => !Signature.endsName c) = true := by decide
      exact (Bool.not_eq_true' _).mp (List.all_eq_true.mp each c inWord)
  · by_contra ends
    simp only [Signature.endsName, Bool.or_eq_false_iff, not_and_or, decide_eq_false_iff_not,
      Decidable.not_not] at ends
    rcases ends with (rfl | rfl) | rfl <;> cases digit

theorem helpful_class_candidate (limited : n ≤ countLimit) :
    isUnhelpful (splitPackage (classCandidate name n)).2 = false := by
  have inside : '/' ∉ ("Class" ++ toString n).toList := by
    intro slash
    refine forall_numbered "Class" n (· ≠ '/') (by simp) (fun c digit => ?_) '/' slash rfl
    rintro rfl
    cases digit
  have isAppended : classCandidate name n = (splitPackage name).1 ++ ("Class" ++ toString n) :=
    String.append_assoc ..
  rw [isAppended, split_package_append name _ inside]
  exact is_unhelpful_numbered "Class" n (by decide) (by decide) limited

end ClassNames

end Names

-- From a count on, an attempt meets at most so many taken names, and then succeeds.
def Settles (attempt : Nat → Except EditError PassContext) (count bound : Nat) : Prop :=
  ∃ n, (count < n ∧ n ≤ count + bound + 1) ∧
    (∀ k, count < k → k < n → ∃ key, attempt k = .error (.nameTaken key)) ∧ ∃ c, attempt n = .ok c

section Search

variable (attempt : Nat → Except EditError PassContext) (count left bound n : Nat)

theorem settles_of_taken (candidate : Nat → String) (injective : ∀ k l, candidate k = candidate l → k = l)
    (names : List String) (taken : ∀ k key, attempt k = .error (.nameTaken key) → candidate k ∈ names)
    (only : ∀ k e, attempt k = .error e → ∃ key, e = .nameTaken key) : Settles attempt count names.length := by
  classical
  have refused : ∀ k, (¬∃ c, attempt k = .ok c) → ∃ key, attempt k = .error (.nameTaken key) := by
    intro k fails
    cases outcome : attempt k with
    | ok c => exact absurd ⟨c, outcome⟩ fails
    | error e =>
        obtain ⟨key, rfl⟩ := only k e outcome
        exact ⟨key, rfl⟩
  have free : ∃ n, (count < n ∧ n ≤ count + names.length + 1) ∧ ∃ c, attempt n = .ok c := by
    by_contra none
    have all : ∀ i ∈ List.range (names.length + 1), candidate (count + 1 + i) ∈ names := by
      intro i member
      have inside := List.mem_range.mp member
      obtain ⟨key, isTaken⟩ := refused (count + 1 + i) fun succeeds => none ⟨_, by omega, succeeds⟩
      exact taken _ key isTaken
    have distinct : ((List.range (names.length + 1)).map fun i => candidate (count + 1 + i)).Nodup := by
      refine List.Nodup.map (fun i j same => ?_) List.nodup_range
      have := injective _ _ same
      omega
    have inside : ((List.range (names.length + 1)).map fun i => candidate (count + 1 + i)) ⊆ names := by
      intro name member
      obtain ⟨i, isIndex, rfl⟩ := List.mem_map.mp member
      exact all i isIndex
    have fewer := (List.subperm_of_subset distinct inside).length_le
    rw [List.length_map, List.length_range] at fewer
    omega
  obtain ⟨inside, succeeds⟩ := Nat.find_spec free
  refine ⟨Nat.find free, inside, fun k later earlier => ?_, succeeds⟩
  have before := Nat.find_min free earlier
  exact refused k fun succeeds => before ⟨by omega, succeeds⟩

theorem first_free_passes (result : Except EditError PassContext)
    (found : firstFree attempt count left = some (n, result)) :
    ∀ k, count < k → k < n → ∃ key, attempt k = .error (.nameTaken key) := by
  induction left generalizing count with
  | zero => cases found
  | succ left ih =>
      rw [firstFree] at found
      intro k later earlier
      split at found
      · rename_i key taken
        by_cases first : k = count + 1
        · exact ⟨key, first ▸ taken⟩
        · exact ih (count + 1) found k (by omega) earlier
      · cases found
        omega

theorem first_free_settled (settles : Settles attempt count bound) (result : Except EditError PassContext)
    (found : firstFree attempt count left = some (n, result)) :
    n ≤ count + bound + 1 ∧ ∃ c, result = .ok c ∧ attempt n = .ok c := by
  obtain ⟨first, inside, before, c, succeeds⟩ := settles
  obtain ⟨rfl, range, free⟩ := first_free_some attempt count left n result found
  have passes := first_free_passes attempt count left n _ found
  have same : n = first := by
    rcases Nat.lt_trichotomy n first with earlier | same | later
    · obtain ⟨key, taken⟩ := before n range.1 earlier
      exact absurd taken (free key)
    · exact same
    · obtain ⟨key, taken⟩ := passes first inside.1 later
      rw [succeeds] at taken
      cases taken
  exact ⟨by omega, c, by rw [same, succeeds], by rw [same, succeeds]⟩

theorem first_free_of_settles (settles : Settles attempt count bound) (room : bound < left) :
    (firstFree attempt count left).isSome = true := by
  obtain ⟨n, inside, before, c, succeeds⟩ := settles
  induction left generalizing count bound with
  | zero => omega
  | succ left ih =>
      rw [firstFree]
      split
      · rename_i key taken
        by_cases first : n = count + 1
        · rw [first, taken] at succeeds
          cases succeeds
        · exact ih (count + 1) (bound - 1) (by omega) (by omega) fun k later earlier =>
            before k (by omega) earlier
      · rfl

theorem settles_edit (rename : String → Except EditError PassContext) (edit : String → Except EditError Program)
    (finish : String → Program → PassContext) (edits : ∀ new, rename new = (edit new).map (finish new))
    (word : String) (names : List String)
    (taken : ∀ (n : Nat) key, edit (word ++ toString n) = .error (.nameTaken key) → word ++ toString n ∈ names)
    (only : ∀ (n : Nat) e, edit (word ++ toString n) = .error e → ∃ key, e = .nameTaken key) :
    Settles (fun n => rename (word ++ toString n)) count names.length := by
  have refused : ∀ (n : Nat) e, rename (word ++ toString n) = .error e → edit (word ++ toString n) = .error e := by
    intro n e isError
    rw [edits] at isError
    cases outcome : edit (word ++ toString n) with
    | error e' =>
        rw [outcome] at isError
        cases isError
        rfl
    | ok q =>
        rw [outcome] at isError
        cases isError
  apply settles_of_taken _ count (fun n => word ++ toString n) (numbered_injective word) names
  · exact fun n key isTaken => taken n key (refused n _ isTaken)
  · exact fun n e isError => only n e (refused n e isError)

-- What a search comes to, from where it ends.
def outcome (count : Nat) (c : PassContext) :
    Option (Nat × Except EditError PassContext) → Except PassFault Nat × PassContext
  | none => (.ok count, c)
  | some (n, .ok c') => (.ok n, c')
  | some (_, .error e) => (.error (.edit e), c)

theorem run_rename_next (rename : PassContext → String → Except EditError PassContext)
    (candidate : Nat → String) (c : PassContext) :
    (renameNext rename candidate count).run.run c =
      outcome count c (firstFree (fun n => rename c (candidate n)) count (countLimit - count)) := by
  rw [renameNext, ExceptT.run_bind, StateT.run_bind,
    show (get : Work PassContext).run.run c = pure (.ok c, c) from rfl, pure_bind]
  dsimp only
  cases firstFree (fun n => rename c (candidate n)) count (countLimit - count) with
  | none => rfl
  | some ending =>
      obtain ⟨n, result⟩ := ending
      cases result <;> rfl

end Search

end Renamer

end JvmEdit
