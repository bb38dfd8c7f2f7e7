import JvmEdit.Flow.Blocks
import Mathlib.Data.List.Nodup
set_option autoImplicit false

namespace JvmEdit

namespace Flow

abbrev Quad := Nat × Nat × Nat × Nat

theorem quad_le_iff (a b : Quad) : quadLe a b = true ↔
    a.1 < b.1 ∨ (a.1 = b.1 ∧ (a.2.1 < b.2.1 ∨ (a.2.1 = b.2.1 ∧
      (a.2.2.1 < b.2.2.1 ∨ (a.2.2.1 = b.2.2.1 ∧ a.2.2.2 ≤ b.2.2.2))))) := by
  simp [quadLe]

theorem quad_le_refl (a : Quad) : quadLe a a = true := by
  rw [quad_le_iff]
  omega

theorem quad_le_trans (a b c : Quad) (first : quadLe a b = true) (second : quadLe b c = true) :
    quadLe a c = true := by
  rw [quad_le_iff] at *
  omega

theorem quad_le_total (a b : Quad) : (quadLe a b || quadLe b a) = true := by
  rw [Bool.or_eq_true, quad_le_iff, quad_le_iff]
  omega

theorem quad_le_antisymm (a b : Quad) (first : quadLe a b = true) (second : quadLe b a = true) :
    a = b := by
  rw [quad_le_iff] at *
  obtain ⟨a1, a2, a3, a4⟩ := a
  obtain ⟨b1, b2, b3, b4⟩ := b
  simp only [Prod.mk.injEq] at *
  omega

theorem sorted_merge_sort (xs : List Quad) : (xs.mergeSort quadLe).Pairwise fun a b => quadLe a b = true :=
  List.pairwise_mergeSort quad_le_trans quad_le_total xs

section Kept

variable {κ : Type} (key : Quad → κ) (same : Quad → Quad → Bool)

-- What lies between two elements of one key has that key as well.
def Together : Prop :=
  ∀ a b c, quadLe a b = true → quadLe b c = true → key a = key c → key a = key b

def keepStep (kept : List Quad) (x : Quad) : List Quad :=
  match kept with
  | [] => [x]
  | last :: _ => if same last x then kept else x :: kept

theorem keep_first_eq (xs : List Quad) :
    keepFirst same xs = (xs.foldl (keepStep same) []).reverse := by
  unfold keepFirst
  refine congrArg (fun step => (xs.foldl step []).reverse) ?_
  funext kept x
  cases kept <;> rfl

-- The kept elements, newest in front, of those that have been looked at.
structure Keeps (seen kept : List Quad) : Prop where
  distinct : (kept.map key).Nodup
  member : ∀ y ∈ kept, y ∈ seen
  covers : ∀ x ∈ seen, ∃ y ∈ kept, key y = key x ∧ quadLe y x = true
  newest : ∀ last rest, kept = last :: rest → ∀ y ∈ kept, quadLe y last = true

variable {key same}

theorem Keeps.eq_nil {seen : List Quad} (keeps : Keeps key seen []) : seen = [] := by
  cases seen with
  | nil => rfl
  | cons z seen =>
      obtain ⟨y, isKept, _⟩ := keeps.covers z List.mem_cons_self
      cases isKept

theorem keeps_first (x : Quad) : Keeps key [x] [x] := by
  refine ⟨List.nodup_singleton _, fun y member => member, ?_, ?_⟩
  · intro z member
    exact ⟨z, member, rfl, quad_le_refl z⟩
  · intro last rest split y member
    cases split
    obtain rfl := List.mem_singleton.mp member
    exact quad_le_refl y

section Step

variable {seen rest : List Quad} {last : Quad} (keeps : Keeps key seen (last :: rest)) (x : Quad)
  (above : ∀ y ∈ seen, quadLe y x = true)

include keeps above

theorem Keeps.skip (equal : key last = key x) : Keeps key (seen ++ [x]) (last :: rest) := by
  refine ⟨keeps.distinct, fun y member => List.mem_append_left _ (keeps.member y member), ?_,
    keeps.newest⟩
  intro z member
  rcases List.mem_append.mp member with before | isX
  · exact keeps.covers z before
  · obtain rfl := List.mem_singleton.mp isX
    exact ⟨last, List.mem_cons_self, equal, above last (keeps.member last List.mem_cons_self)⟩

theorem Keeps.push (together : Together key) (differs : key last ≠ key x) :
    Keeps key (seen ++ [x]) (x :: last :: rest) := by
  have lastSeen := keeps.member last List.mem_cons_self
  refine ⟨List.nodup_cons.mpr ⟨fun member => differs ?_, keeps.distinct⟩, ?_, ?_, ?_⟩
  · obtain ⟨y, isKept, sameAsX⟩ := List.mem_map.mp member
    have run := together y last x (keeps.newest last rest rfl y isKept) (above last lastSeen) sameAsX
    exact run.symm.trans sameAsX
  · intro y member
    rcases List.mem_cons.mp member with rfl | isKept
    · exact List.mem_append_right _ List.mem_cons_self
    · exact List.mem_append_left _ (keeps.member y isKept)
  · intro z member
    rcases List.mem_append.mp member with before | isX
    · obtain ⟨y, isKept, found⟩ := keeps.covers z before
      exact ⟨y, List.mem_cons_of_mem x isKept, found⟩
    · obtain rfl := List.mem_singleton.mp isX
      exact ⟨z, List.mem_cons_self, rfl, quad_le_refl z⟩
  · intro newest others split y member
    cases split
    rcases List.mem_cons.mp member with rfl | isKept
    · exact quad_le_refl y
    · exact above y (keeps.member y isKept)

end Step

theorem Keeps.step {seen kept : List Quad} (keeps : Keeps key seen kept) (x : Quad)
    (sameKey : ∀ a b, same a b = true ↔ key a = key b) (together : Together key)
    (above : ∀ y ∈ seen, quadLe y x = true) : Keeps key (seen ++ [x]) (keepStep same kept x) := by
  cases kept with
  | nil =>
      obtain rfl := keeps.eq_nil
      exact keeps_first x
  | cons last rest =>
      rw [keepStep]
      by_cases equal : same last x = true
      · rw [if_pos equal]
        exact keeps.skip x above ((sameKey last x).mp equal)
      · rw [if_neg equal]
        exact keeps.push x above together fun keys => equal ((sameKey last x).mpr keys)

theorem keeps_foldl (sameKey : ∀ a b, same a b = true ↔ key a = key b) (together : Together key)
    (xs seen kept : List Quad) (keeps : Keeps key seen kept)
    (sorted : (seen ++ xs).Pairwise fun a b => quadLe a b = true) :
    Keeps key (seen ++ xs) (xs.foldl (keepStep same) kept) := by
  induction xs generalizing seen kept with
  | nil => simpa using keeps
  | cons x xs ih =>
      have above : ∀ y ∈ seen, quadLe y x = true := fun y member =>
        (List.pairwise_append.mp sorted).2.2 y member x List.mem_cons_self
      have split : seen ++ x :: xs = (seen ++ [x]) ++ xs := by simp
      rw [List.foldl_cons, split]
      exact ih _ _ (keeps.step x sameKey together above) (split ▸ sorted)

variable (key same)

theorem mem_keep_first (sameKey : ∀ a b, same a b = true ↔ key a = key b) (together : Together key)
    (xs : List Quad) :
    ((keepFirst same (xs.mergeSort quadLe)).map key).Nodup ∧
      ∀ y, y ∈ keepFirst same (xs.mergeSort quadLe) ↔
        y ∈ xs ∧ ∀ x ∈ xs, key x = key y → quadLe y x = true := by
  have keeps : Keeps key (xs.mergeSort quadLe) ((xs.mergeSort quadLe).foldl (keepStep same) []) := by
    have start : Keeps key [] [] := ⟨List.nodup_nil, by simp, by simp, by simp⟩
    simpa using keeps_foldl sameKey together (xs.mergeSort quadLe) [] [] start (sorted_merge_sort xs)
  rw [keep_first_eq]
  constructor
  · rw [List.map_reverse]
    exact List.nodup_reverse.mpr keeps.distinct
  · intro y
    rw [List.mem_reverse]
    constructor
    · intro member
      refine ⟨List.mem_mergeSort.mp (keeps.member y member), fun x isX sameAsY => ?_⟩
      obtain ⟨z, isKept, sameAsX, below⟩ := keeps.covers x (List.mem_mergeSort.mpr isX)
      have unique := List.inj_on_of_nodup_map keeps.distinct isKept member (sameAsX.trans sameAsY)
      exact unique ▸ below
    · rintro ⟨isY, least⟩
      obtain ⟨z, isKept, sameAsY, below⟩ := keeps.covers y (List.mem_mergeSort.mpr isY)
      have above := least z (List.mem_mergeSort.mp (keeps.member z isKept)) sameAsY
      rwa [← quad_le_antisymm z y below above]

end Kept

section Transfers

variable (flags : Array Bool) (blockOf : Nat → Nat) (trace : List Transfer)

-- The transfers to starts of blocks, written like the exceptional ones.
def flowQuads : List Quad :=
  trace.filterMap fun
    | .flow source target => if flags[target]? = some true then some (source, target, 0, 0) else none
    | .exception _ _ => none

def exceptionQuads : List Quad :=
  trace.filterMap fun
    | .exception source handler => some (blockOf source, blockOf handler, 0, source)
    | .flow _ _ => none

theorem mem_flow_quads (q : Quad) : q ∈ flowQuads flags trace ↔
    ∃ source target, .flow source target ∈ trace ∧ flags[target]? = some true ∧
      q = (source, target, 0, 0) := by
  rw [flowQuads, List.mem_filterMap]
  constructor
  · rintro ⟨t, member, made⟩
    cases t with
    | flow source target =>
        simp only [Option.ite_none_right_eq_some, Option.some.injEq] at made
        exact ⟨source, target, member, made.1, made.2.symm⟩
    | exception source handler => cases made
  · rintro ⟨source, target, member, starts, rfl⟩
    exact ⟨_, member, if_pos starts⟩

theorem mem_exception_quads (q : Quad) : q ∈ exceptionQuads blockOf trace ↔
    ∃ source handler, .exception source handler ∈ trace ∧
      q = (blockOf source, blockOf handler, 0, source) := by
  rw [exceptionQuads, List.mem_filterMap]
  constructor
  · rintro ⟨t, member, made⟩
    cases t with
    | flow source target => cases made
    | exception source handler => exact ⟨source, handler, member, (Option.some.inj made).symm⟩
  · rintro ⟨source, handler, member, rfl⟩
    exact ⟨_, member, rfl⟩

theorem flow_pairs_eq : flowPairs flags trace =
    (keepFirst (· == ·) ((flowQuads flags trace).mergeSort quadLe)).map fun q => (q.1, q.2.1) := rfl

theorem exception_edges_eq : exceptionEdges blockOf trace =
    (keepFirst (fun a b => a.1 == b.1 && a.2.1 == b.2.1)
      ((exceptionQuads blockOf trace).mergeSort quadLe)).map fun q => (q.1, q.2.1, q.2.2.2) := rfl

theorem together_id : Together id := by
  intro a b c first second same
  obtain rfl : a = c := same
  exact quad_le_antisymm a b first second

theorem together_pair : Together fun q => (q.1, q.2.1) := by
  intro a b c first second same
  rw [quad_le_iff] at first second
  simp only [Prod.mk.injEq] at same ⊢
  omega

theorem mem_flow_pairs (source target : Nat) : (source, target) ∈ flowPairs flags trace ↔
    .flow source target ∈ trace ∧ flags[target]? = some true := by
  have kept := (mem_keep_first id (· == ·) (fun a b => beq_iff_eq) together_id
    (flowQuads flags trace)).2
  rw [flow_pairs_eq, List.mem_map]
  constructor
  · rintro ⟨q, member, isPair⟩
    obtain ⟨source', target', followed, starts, rfl⟩ :=
      (mem_flow_quads flags trace q).mp ((kept q).mp member).1
    cases isPair
    exact ⟨followed, starts⟩
  · rintro ⟨followed, starts⟩
    refine ⟨(source, target, 0, 0), (kept _).mpr ⟨?_, fun x _ same => ?_⟩, rfl⟩
    · exact (mem_flow_quads flags trace _).mpr ⟨source, target, followed, starts, rfl⟩
    · obtain rfl : x = _ := same
      exact quad_le_refl _

theorem nodup_flow_pairs : (flowPairs flags trace).Nodup := by
  obtain ⟨distinct, kept⟩ := mem_keep_first id (· == ·) (fun a b => beq_iff_eq)
    together_id (flowQuads flags trace)
  rw [List.map_id] at distinct
  rw [flow_pairs_eq]
  refine distinct.map_on fun q member q' member' same => ?_
  obtain ⟨source, target, _, _, rfl⟩ := (mem_flow_quads flags trace q).mp ((kept q).mp member).1
  obtain ⟨source', target', _, _, rfl⟩ := (mem_flow_quads flags trace q').mp ((kept q').mp member').1
  cases same
  rfl

theorem mem_exception_edges (k k' position : Nat) :
    (k, k', position) ∈ exceptionEdges blockOf trace ↔
      (∃ handler, .exception position handler ∈ trace ∧ blockOf position = k ∧
        blockOf handler = k') ∧
      ∀ source handler, .exception source handler ∈ trace → blockOf source = k →
        blockOf handler = k' → position ≤ source := by
  have kept := (mem_keep_first (fun q => (q.1, q.2.1))
    (fun a b => a.1 == b.1 && a.2.1 == b.2.1) (fun a b => by simp) together_pair
    (exceptionQuads blockOf trace)).2
  rw [exception_edges_eq, List.mem_map]
  constructor
  · rintro ⟨q, member, isTriple⟩
    obtain ⟨isQuad, least⟩ := (kept q).mp member
    obtain ⟨source, handler, raised, rfl⟩ := (mem_exception_quads blockOf trace q).mp isQuad
    simp only [Prod.mk.injEq] at isTriple
    obtain ⟨rfl, rfl, rfl⟩ := isTriple
    refine ⟨⟨handler, raised, rfl, rfl⟩, fun source' handler' raised' same same' => ?_⟩
    have below := least (blockOf source', blockOf handler', 0, source')
      ((mem_exception_quads blockOf trace _).mpr ⟨source', handler', raised', rfl⟩)
      (by simp [same, same'])
    rw [quad_le_iff] at below
    dsimp only at below
    omega
  · rintro ⟨⟨handler, raised, rfl, rfl⟩, least⟩
    refine ⟨(blockOf position, blockOf handler, 0, position), (kept _).mpr ⟨?_, ?_⟩, rfl⟩
    · exact (mem_exception_quads blockOf trace _).mpr ⟨position, handler, raised, rfl⟩
    · intro x isQuad sameKey
      obtain ⟨source', handler', raised', rfl⟩ := (mem_exception_quads blockOf trace x).mp isQuad
      simp only [Prod.mk.injEq] at sameKey
      have below := least source' handler' raised' sameKey.1 sameKey.2
      rw [quad_le_iff]
      dsimp only
      omega

theorem nodup_exception_edges :
    ((exceptionEdges blockOf trace).map fun e => (e.1, e.2.1)).Nodup := by
  have distinct := (mem_keep_first (fun q => (q.1, q.2.1))
    (fun a b => a.1 == b.1 && a.2.1 == b.2.1) (fun a b => by simp) together_pair
    (exceptionQuads blockOf trace)).1
  rwa [exception_edges_eq, List.map_map]

end Transfers

end Flow

end JvmEdit
