import JvmEdit.Proofs.Flow.Bound
import JvmEdit.Proofs.Flow.Graph
set_option autoImplicit false

namespace JvmEdit

namespace Flow

-- How many instructions stand before a position; markers do not count.
def rank (code : List Instruction) (position : Nat) : Nat :=
  (code.take position).countP fun i => !i.isLabel

section Rank

variable (code : List Instruction)

theorem rank_mono {p q : Nat} (le : p ≤ q) : rank code p ≤ rank code q :=
  (List.take_sublist_take_left le).countP_le

theorem rank_succ {p : Nat} {i : Instruction} (here : code[p]? = some i) :
    rank code (p + 1) = rank code p + if i.isLabel then 0 else 1 := by
  rw [rank, List.take_add_one, here, List.countP_append, Option.toList_some, List.countP_singleton, rank]
  cases i.isLabel <;> rfl

variable {code}

theorem rank_marker {p : Nat} {i : Instruction} (here : code[p]? = some i) (marker : i.isLabel = true) :
    rank code (p + 1) = rank code p := by
  rw [rank_succ code here, if_pos marker]
  rfl

theorem rank_real {p : Nat} {i : Instruction} (here : code[p]? = some i) (real : i.isLabel = false) :
    rank code (p + 1) = rank code p + 1 := by
  rw [rank_succ code here, if_neg (by simp [real])]

end Rank

-- The instructions do the same, wherever they lead.
structure Acts [Libraries] (i i' : Instruction) : Prop where
  effect : effect i'.opcode i'.operand = effect i.opcode i.operand
  continues : i'.continues = i.continues
  calls : i'.callsSubroutine = i.callsSubroutine

theorem Acts.trans [Libraries] {i j k : Instruction} (first : Acts i j) (second : Acts j k) :
    Acts i k :=
  ⟨second.effect.trans first.effect, second.continues.trans first.continues,
    second.calls.trans first.calls⟩

section Source

variable (code code' : List Instruction) (ord : Nat → Nat)

-- The one label stands in the old code where the other one stands in the new.
def Meets (label label' : LabelId) : Prop :=
  ∃ p q, Stands code label p ∧ Stands code' label' q ∧ ord p = rank code' q

-- The instructions do the same and lead to the same places.
structure Mirrors [Libraries] (i i' : Instruction) : Prop extends Acts i i' where
  targets : ∀ label' ∈ i'.targets, ∃ label ∈ i.targets, Meets code code' ord label label'

-- The instruction as one of the new code.
structure Single [Libraries] (p : Nat) (i : Instruction) : Prop where
  next : ord (p + 1) = ord p + 1
  mirrors : ∀ (q : Nat) (i' : Instruction), code'[q]? = some i' → i'.isLabel = false →
    rank code' q = ord p → Mirrors code code' ord i i'

-- A conditional branch as a hop, which goes on behind, and a branch that is always taken.
structure Hopped [Libraries] (p : Nat) (i : Instruction) : Prop where
  next : ord (p + 1) = ord p + 2
  continues : i.continues = true
  stays : i.callsSubroutine = false
  hop : ∀ (q : Nat) (i' : Instruction), code'[q]? = some i' → i'.isLabel = false → rank code' q = ord p →
    effect i'.opcode i'.operand = effect i.opcode i.operand ∧ i'.callsSubroutine = false ∧
      ∀ label' ∈ i'.targets, ∃ goal, Stands code' label' goal ∧ rank code' goal = ord (p + 1)
  branch : ∀ (q : Nat) (i' : Instruction), code'[q]? = some i' → i'.isLabel = false →
    rank code' q = ord p + 1 → effect i'.opcode i'.operand = .ok (0, 0) ∧ i'.continues = false ∧
      i'.callsSubroutine = false ∧
      ∀ label' ∈ i'.targets, ∃ label ∈ i.targets, Meets code code' ord label label'

-- The new code by the old one; `ord` counts the instructions that stand in the new code for those
-- before a position of the old one. No two markers stand side by side in the new code.
structure Expands [Libraries] (ranges ranges' : List TryRange) : Prop where
  first : ord 0 = 0
  marker : ∀ (p : Nat) (i : Instruction), code[p]? = some i → i.isLabel = true →
    i.continues = true ∧ ord (p + 1) = ord p
  real : ∀ (p : Nat) (i : Instruction), code[p]? = some i → i.isLabel = false →
    Single code code' ord p i ∨ Hopped code code' ord p i
  total : ord code.length = rank code' code'.length
  lone : ∀ (q q' : Nat) (label label' : LabelId), Marks code' q label → Marks code' q' label' →
    q < q' → rank code' q < rank code' q'
  ranges : ∀ range' ∈ ranges', ∃ range ∈ ranges, Meets code code' ord range.start range'.start ∧
    Meets code code' ord range.stop range'.stop ∧ Meets code code' ord range.handler range'.handler

-- A configuration of the new code by one of the old: in front of the same instruction, or behind a hop
-- and in front of the branch that it hops over.
inductive Shadows [Libraries] (ranges : List TryRange) (d : Config) : Prop
  | front {p : Nat} {i : Instruction} (here : code[p]? = some i) (real : i.isLabel = false)
      (reaches : Reaches code ranges none ⟨p, d.height⟩) (place : rank code' d.position = ord p)
  | within {p before : Nat} {i : Instruction} (here : code[p]? = some i) (real : i.isLabel = false)
      (hopped : Hopped code code' ord p i) (reaches : Reaches code ranges none ⟨p, before⟩)
      (carries : Carries none i before d.height) (place : rank code' d.position = ord p + 1)

end Source

theorem Reaches.induct [Libraries] {code : List Instruction} {ranges : List TryRange}
    {limit : Option UInt16}
    {holds : Config → Prop} {c : Config} (reaches : Reaches code ranges limit c)
    (start : code ≠ [] → holds ⟨0, 0⟩)
    (step : ∀ c d, holds c → Steps code ranges limit c d → holds d) : holds c := by
  obtain ⟨nonempty, path⟩ := reaches
  induction path with
  | refl => exact start nonempty
  | tail _ steps ih => exact step _ _ ih steps

theorem marks_of_is_label {code : List Instruction} {p : Nat} {i : Instruction}
    (here : code[p]? = some i) (marker : i.isLabel = true) : ∃ label, Marks code p label := by
  obtain ⟨label, marked⟩ := Option.isSome_iff_exists.mp marker
  exact ⟨label, Option.bind_eq_some_iff.mpr ⟨i, here, marked⟩⟩

theorem targets_of_is_label {i : Instruction} (marker : i.isLabel = true) : i.targets = [] := by
  obtain ⟨id, op, operand⟩ := i
  cases operand with
  | label label => rfl
  | _ => cases marker

theorem plain_of_is_label [Libraries] {i : Instruction} (marker : i.isLabel = true) :
    effect i.opcode i.operand = .ok (0, 0) ∧ i.targets = [] ∧ i.callsSubroutine = false := by
  obtain ⟨id, op, operand⟩ := i
  cases operand with
  | label label => exact ⟨rfl, rfl, rfl⟩
  | _ => cases marker

theorem Carries.of_effect [Libraries] {limit : Option UInt16} {i i' : Instruction} {before after : Nat}
    (same : effect i'.opcode i'.operand = effect i.opcode i.operand)
    (carries : Carries limit i' before after) : Carries none i before after := by
  obtain ⟨pops, pushes, read, fits, isAfter, _⟩ := carries
  exact ⟨pops, pushes, same ▸ read, fits, isAfter, fun _ none => by cases none⟩

theorem Carries.eq_of_plain [Libraries] {limit : Option UInt16} {i : Instruction} {before after : Nat}
    (plain : effect i.opcode i.operand = .ok (0, 0)) (carries : Carries limit i before after) :
    after = before := by
  obtain ⟨pops, pushes, read, _, rfl, _⟩ := carries
  cases plain.symm.trans read
  rfl

section Expansion

variable {code code' : List Instruction} {ranges ranges' : List TryRange} {ord : Nat → Nat}

theorem Meets.goal {label label' : LabelId} {q : Nat} (meets : Meets code code' ord label label')
    (stands : Stands code' label' q) : ∃ p, Stands code label p ∧ rank code' q = ord p := by
  obtain ⟨p, q', isHere, isThere, same⟩ := meets
  cases isThere.unique stands
  exact ⟨p, isHere, same.symm⟩

theorem Shadows.marker [Libraries] {n : UInt16} {d e : Config} {i' : Instruction}
    (shadows : Shadows code code' ord ranges d)
    (there : code'[d.position]? = some i') (marker : i'.isLabel = true)
    (flows : Flows code' (some n) d e) : Shadows code code' ord ranges e := by
  obtain ⟨plain, none, stays⟩ := plain_of_is_label marker
  have same := rank_marker there marker
  cases flows with
  | target there' _ named _ =>
      cases there.symm.trans there'
      rw [none] at named
      cases named
  | comeBack there' _ calls _ =>
      cases there.symm.trans there'
      rw [stays] at calls
      cases calls
  | next there' carries _ _ _ =>
      cases there.symm.trans there'
      cases carries.eq_of_plain plain
      cases shadows with
      | front here real reaches place => exact .front here real reaches (same.trans place)
      | within here real hopped reaches carries place =>
          exact .within here real hopped reaches carries (same.trans place)

variable [Libraries] (expands : Expands code code' ord ranges ranges')

include expands

namespace Expands

theorem ord_next (p : Nat) (inside : p < code.length) : ord p ≤ ord (p + 1) := by
  obtain ⟨i, here⟩ : ∃ i, code[p]? = some i := ⟨_, List.getElem?_eq_getElem inside⟩
  cases marker : i.isLabel with
  | true => exact Nat.le_of_eq (expands.marker p _ here marker).2.symm
  | false =>
      rcases expands.real p _ here marker with single | hopped
      · exact single.next ▸ Nat.le_add_right _ _
      · exact hopped.next ▸ Nat.le_add_right _ _

theorem ord_le {p q : Nat} (le : p ≤ q) (inside : q ≤ code.length) : ord p ≤ ord q := by
  induction le with
  | refl => exact Nat.le_refl _
  | @step q le ih => exact Nat.le_trans (ih (Nat.le_of_succ_le inside)) (expands.ord_next q inside)

theorem ord_lt {p q : Nat} {i : Instruction} (here : code[p]? = some i) (real : i.isLabel = false)
    (less : p < q) (inside : q ≤ code.length) : ord p < ord q := by
  have later := expands.ord_le (show p + 1 ≤ q from less) inside
  rcases expands.real p i here real with single | hopped
  · have more := single.next
    omega
  · have more := hopped.next
    omega

theorem ord_inj {p q : Nat} {i j : Instruction} (here : code[p]? = some i) (real : i.isLabel = false)
    (there : code[q]? = some j) (real' : j.isLabel = false) (same : ord p = ord q) : p = q := by
  have inside := (List.getElem?_eq_some_iff.mp here).1
  have inside' := (List.getElem?_eq_some_iff.mp there).1
  rcases Nat.lt_trichotomy p q with less | equal | more
  · exact absurd same (Nat.ne_of_lt (expands.ord_lt here real less (Nat.le_of_lt inside')))
  · exact equal
  · exact absurd same.symm (Nat.ne_of_lt (expands.ord_lt there real' more (Nat.le_of_lt inside)))

theorem rank_lt {q stop : Nat} {label : LabelId} (marks : Marks code' stop label) (less : q < stop) :
    rank code' q < rank code' stop := by
  obtain ⟨i', here⟩ : ∃ i', code'[q]? = some i' :=
    ⟨_, List.getElem?_eq_getElem (Nat.lt_trans less marks.inside)⟩
  cases marker : i'.isLabel with
  | true =>
      obtain ⟨other, marks'⟩ := marks_of_is_label here marker
      exact expands.lone q stop other label marks' marks less
  | false =>
      have later := rank_mono code' (show q + 1 ≤ stop from less)
      rw [rank_real here marker] at later
      exact later

theorem shadows_aims {d : Config} {i' : Instruction} (shadows : Shadows code code' ord ranges d)
    (there : code'[d.position]? = some i') {label' : LabelId} (named : label' ∈ i'.targets) :
    ∃ q, Marks code' q label' := by
  cases real : i'.isLabel with
  | true =>
      rw [(plain_of_is_label real).2.1] at named
      cases named
  | false =>
      cases shadows with
      | @front p i here isReal reaches place =>
          rcases expands.real p i here isReal with single | hopped
          · obtain ⟨_, _, _, q, _, stands, _⟩ := (single.mirrors _ i' there real place).targets label' named
            exact ⟨q, stands.1⟩
          · obtain ⟨q, stands, _⟩ := (hopped.hop _ i' there real place).2.2 label' named
            exact ⟨q, stands.1⟩
      | within here isReal hopped reaches carries place =>
          obtain ⟨_, _, _, q, _, stands, _⟩ := (hopped.branch _ i' there real place).2.2.2 label' named
          exact ⟨q, stands.1⟩

variable (consistent : Consistent code ranges none)

include consistent

theorem runs_on (p height : Nat) (reaches : Reaches code ranges none ⟨p, height⟩) :
    ∃ p' i, code[p']? = some i ∧ i.isLabel = false ∧ Reaches code ranges none ⟨p', height⟩ ∧
      ord p' = ord p := by
  have inside := reaches.inside
  obtain ⟨i, here⟩ : ∃ i, code[p]? = some i := ⟨_, List.getElem?_eq_getElem inside⟩
  cases marker : i.isLabel with
  | false => exact ⟨p, _, here, marker, reaches, rfl⟩
  | true =>
      obtain ⟨continues, same⟩ := expands.marker p _ here marker
      obtain ⟨plain, _, stays⟩ := plain_of_is_label marker
      have more : p + 1 < code.length := Nat.lt_of_not_le fun last =>
        consistent.faultless _ reaches (.fallsOff here continues last)
      have carries : Carries none i height height :=
        ⟨0, 0, plain, Nat.zero_le _, rfl, fun _ none => by cases none⟩
      have next : Reaches code ranges none ⟨p + 1, height⟩ :=
        ⟨reaches.1, reaches.2.tail (Or.inl (.next here carries continues stays more))⟩
      obtain ⟨p', i, there, real, arrives, place⟩ := runs_on (p + 1) height next
      exact ⟨p', i, there, real, arrives, place.trans same⟩
termination_by code.length - p

theorem shadows_of_reaches {p q height : Nat} (reaches : Reaches code ranges none ⟨p, height⟩)
    (place : rank code' q = ord p) : Shadows code code' ord ranges ⟨q, height⟩ := by
  obtain ⟨p', i, here, real, arrives, same⟩ := expands.runs_on consistent p height reaches
  exact .front here real arrives (place.trans same.symm)

theorem ord_next_lt {p height : Nat} {i : Instruction} (here : code[p]? = some i)
    (reaches : Reaches code ranges none ⟨p, height⟩) (continues : i.continues = true) :
    ord (p + 1) < ord code.length := by
  have faultless := consistent.faultless _ reaches
  have inside : p + 1 < code.length := Nat.lt_of_not_le fun last => faultless (.fallsOff here continues last)
  obtain ⟨after, carries⟩ := carries_of_faultless here faultless
  have next : ∃ height', Reaches code ranges none ⟨p + 1, height'⟩ := by
    cases calls : i.callsSubroutine with
    | true => exact ⟨height, reaches.1, reaches.2.tail (Or.inl (.comeBack here carries calls inside))⟩
    | false => exact ⟨after, reaches.1, reaches.2.tail (Or.inl (.next here carries continues calls inside))⟩
  obtain ⟨height', arrives⟩ := next
  obtain ⟨p', j, there, real, _, same⟩ := expands.runs_on consistent (p + 1) height' arrives
  rw [← same]
  exact expands.ord_lt there real (List.getElem?_eq_some_iff.mp there).1 (Nat.le_refl _)

section Step

variable {n : UInt16}

theorem shadows_single {p q height : Nat} {i i' : Instruction} {e : Config} (here : code[p]? = some i)
    (reaches : Reaches code ranges none ⟨p, height⟩) (single : Single code code' ord p i)
    (there : code'[q]? = some i') (real : i'.isLabel = false) (place : rank code' q = ord p)
    (flows : Flows code' (some n) ⟨q, height⟩ e) : Shadows code code' ord ranges e := by
  have mirrors := single.mirrors q i' there real place
  have behind : rank code' (q + 1) = ord (p + 1) := by rw [rank_real there real, place, single.next]
  have inside : i.continues = true → p + 1 < code.length := fun continues => Nat.lt_of_not_le fun last =>
    consistent.faultless _ reaches (.fallsOff here continues last)
  cases flows with
  | target there' carries named stands =>
      cases there.symm.trans there'
      obtain ⟨label, isNamed, meets⟩ := mirrors.targets _ named
      obtain ⟨goal, isGoal, same⟩ := meets.goal stands
      have flows := Flows.target here (carries.of_effect mirrors.effect) isNamed isGoal
      exact expands.shadows_of_reaches consistent ⟨reaches.1, reaches.2.tail (Or.inl flows)⟩ same
  | next there' carries continues stays _ =>
      cases there.symm.trans there'
      rw [mirrors.continues] at continues
      rw [mirrors.calls] at stays
      have flows := Flows.next here (carries.of_effect mirrors.effect) continues stays (inside continues)
      exact expands.shadows_of_reaches consistent ⟨reaches.1, reaches.2.tail (Or.inl flows)⟩ behind
  | comeBack there' carries calls _ =>
      cases there.symm.trans there'
      rw [mirrors.calls] at calls
      have flows := Flows.comeBack here (carries.of_effect mirrors.effect) calls
        (inside (continues_of_calls i calls))
      exact expands.shadows_of_reaches consistent ⟨reaches.1, reaches.2.tail (Or.inl flows)⟩ behind

theorem shadows_hop {p q height : Nat} {i i' : Instruction} {e : Config} (here : code[p]? = some i)
    (isReal : i.isLabel = false) (reaches : Reaches code ranges none ⟨p, height⟩)
    (hopped : Hopped code code' ord p i) (there : code'[q]? = some i') (real : i'.isLabel = false)
    (place : rank code' q = ord p) (flows : Flows code' (some n) ⟨q, height⟩ e) :
    Shadows code code' ord ranges e := by
  obtain ⟨same, stays, targets⟩ := hopped.hop q i' there real place
  cases flows with
  | target there' carries named stands =>
      cases there.symm.trans there'
      obtain ⟨goal, isGoal, behind⟩ := targets _ named
      cases isGoal.unique stands
      have inside : p + 1 < code.length := Nat.lt_of_not_le fun last =>
        consistent.faultless _ reaches (.fallsOff here hopped.continues last)
      have flows := Flows.next here (carries.of_effect same) hopped.continues hopped.stays inside
      exact expands.shadows_of_reaches consistent ⟨reaches.1, reaches.2.tail (Or.inl flows)⟩ behind
  | next there' carries _ _ _ =>
      cases there.symm.trans there'
      refine .within here isReal hopped reaches (carries.of_effect same) ?_
      rw [rank_real there real, place]
  | comeBack there' _ calls _ =>
      cases there.symm.trans there'
      rw [stays] at calls
      cases calls

theorem shadows_branch {p q before height : Nat} {i i' : Instruction} {e : Config}
    (here : code[p]? = some i) (reaches : Reaches code ranges none ⟨p, before⟩)
    (hopped : Hopped code code' ord p i) (carries : Carries none i before height)
    (there : code'[q]? = some i') (real : i'.isLabel = false) (place : rank code' q = ord p + 1)
    (flows : Flows code' (some n) ⟨q, height⟩ e) : Shadows code code' ord ranges e := by
  obtain ⟨plain, ends, stays, targets⟩ := hopped.branch q i' there real place
  cases flows with
  | target there' carries' named stands =>
      cases there.symm.trans there'
      cases carries'.eq_of_plain plain
      obtain ⟨label, isNamed, meets⟩ := targets _ named
      obtain ⟨goal, isGoal, same⟩ := meets.goal stands
      have flows := Flows.target here carries isNamed isGoal
      exact expands.shadows_of_reaches consistent ⟨reaches.1, reaches.2.tail (Or.inl flows)⟩ same
  | next there' _ continues _ _ =>
      cases there.symm.trans there'
      rw [ends] at continues
      cases continues
  | comeBack there' _ calls _ =>
      cases there.symm.trans there'
      rw [stays] at calls
      cases calls

theorem shadows_flows {d e : Config} (shadows : Shadows code code' ord ranges d)
    (flows : Flows code' (some n) d e) : Shadows code code' ord ranges e := by
  have there : ∃ i', code'[d.position]? = some i' := by
    cases flows with
    | target there _ _ _ => exact ⟨_, there⟩
    | next there _ _ _ _ => exact ⟨_, there⟩
    | comeBack there _ _ _ => exact ⟨_, there⟩
  obtain ⟨i', there⟩ := there
  cases real : i'.isLabel with
  | true => exact shadows.marker there real flows
  | false =>
      cases shadows with
      | @front p i here isReal reaches place =>
          rcases expands.real p i here isReal with single | hopped
          · exact expands.shadows_single consistent here reaches single there real place flows
          · exact expands.shadows_hop consistent here isReal reaches hopped there real place flows
      | within here _ hopped reaches carries place =>
          exact expands.shadows_branch consistent here reaches hopped carries there real place flows

theorem shadows_raises {d e : Config} (shadows : Shadows code code' ord ranges d)
    (raises : Raises code' ranges' d e) : Shadows code code' ord ranges e := by
  cases raises with
  | @handler q height start stop entry range' member starts stops enters after before =>
      obtain ⟨range, isRange, meetsStart, meetsStop, meetsHandler⟩ := expands.ranges range' member
      obtain ⟨first, isFirst, sameFirst⟩ := meetsStart.goal starts
      obtain ⟨last, isLast, sameLast⟩ := meetsStop.goal stops
      obtain ⟨goal, isGoal, sameGoal⟩ := meetsHandler.goal enters
      have behind := rank_mono code' after
      have front := expands.rank_lt stops.1 before
      have stopInside := Nat.le_of_lt isLast.1.inside
      have covered : ∃ p before, Reaches code ranges none ⟨p, before⟩ ∧ first ≤ p ∧ p < last := by
        cases shadows with
        | @front p i here real reaches place =>
            dsimp only at place
            refine ⟨p, height, reaches, ?_, ?_⟩
            · by_contra early
              have less := expands.ord_lt here real (Nat.lt_of_not_le early)
                (Nat.le_of_lt isFirst.1.inside)
              omega
            · by_contra late
              have more := expands.ord_le (Nat.le_of_not_lt late) (Nat.le_of_lt reaches.inside)
              omega
        | @within p arrived i here real hopped reaches carries place =>
            dsimp only at place
            have next := hopped.next
            refine ⟨p, arrived, reaches, ?_, ?_⟩
            · by_contra early
              have more := expands.ord_le (show p + 1 ≤ first by omega) (Nat.le_of_lt isFirst.1.inside)
              omega
            · by_contra late
              have more := expands.ord_le (Nat.le_of_not_lt late) (Nat.le_of_lt reaches.inside)
              omega
      obtain ⟨p, arrived, reaches, above, below⟩ := covered
      have raises : Raises code ranges ⟨p, arrived⟩ ⟨goal, 1⟩ :=
        .handler isRange isFirst isLast isGoal above below
      exact expands.shadows_of_reaches consistent ⟨reaches.1, reaches.2.tail (Or.inr raises)⟩ sameGoal

theorem shadows_of_reached {d : Config} (nonempty : code ≠ [])
    (reaches : Reaches code' ranges' (some n) d) : Shadows code code' ord ranges d := by
  refine reaches.induct (fun _ => ?_) fun c e shadows steps => ?_
  · exact expands.shadows_of_reaches consistent ⟨nonempty, .refl⟩ expands.first.symm
  · rcases steps with flows | raises
    · exact expands.shadows_flows consistent shadows flows
    · exact expands.shadows_raises consistent shadows raises

end Step

theorem shadows_inside {d : Config} {i' : Instruction} (shadows : Shadows code code' ord ranges d)
    (there : code'[d.position]? = some i') (continues : i'.isLabel = false → i'.continues = true) :
    d.position + 1 < code'.length := by
  have inside := (List.getElem?_eq_some_iff.mp there).1
  have counted : rank code' (d.position + 1) < rank code' code'.length := by
    rw [← expands.total]
    cases shadows with
    | @front p i here isReal reaches place =>
        have within := (List.getElem?_eq_some_iff.mp here).1
        cases real : i'.isLabel with
        | true =>
            rw [rank_marker there real, place]
            exact expands.ord_lt here isReal within (Nat.le_refl _)
        | false =>
            rw [rank_real there real, place]
            rcases expands.real p i here isReal with single | hopped
            · have same := (single.mirrors _ i' there real place).continues
              rw [← single.next]
              exact expands.ord_next_lt consistent here reaches (same.symm.trans (continues real))
            · have more := expands.ord_le (show p + 1 ≤ code.length from within) (Nat.le_refl _)
              rw [hopped.next] at more
              exact more
    | @within p before i here isReal hopped reaches carries place =>
        have within := (List.getElem?_eq_some_iff.mp here).1
        cases real : i'.isLabel with
        | true =>
            have more := expands.ord_le (show p + 1 ≤ code.length from within) (Nat.le_refl _)
            rw [hopped.next] at more
            rw [rank_marker there real, place]
            exact more
        | false =>
            obtain ⟨_, ends, _⟩ := hopped.branch _ i' there real place
            rw [continues real] at ends
            cases ends
  refine Nat.lt_of_le_of_ne inside fun last => Nat.ne_of_lt counted ?_
  rw [last]

section Bounded

variable {n : UInt16} (suited : ∀ i ∈ code, Code.Suited i.opcode i.operand)
  (low : ∀ c, Reaches code ranges none c → c.height ≤ n.toNat)

include suited low

theorem shadows_carries {d : Config} {i' : Instruction} (shadows : Shadows code code' ord ranges d)
    (there : code'[d.position]? = some i') : ∃ pops pushes, effect i'.opcode i'.operand = .ok (pops, pushes) ∧
      pops ≤ d.height ∧ d.height - pops + pushes ≤ n.toNat := by
  -- what lets the stack be is within bounds because the stack is
  have plain : effect i'.opcode i'.operand = .ok (0, 0) → d.height ≤ n.toNat → ∃ pops pushes,
      effect i'.opcode i'.operand = .ok (pops, pushes) ∧ pops ≤ d.height ∧
        d.height - pops + pushes ≤ n.toNat := fun read fits => ⟨0, 0, read, Nat.zero_le _, fits⟩
  cases shadows with
  | @front p i here isReal reaches place =>
      have fits := low _ reaches
      cases real : i'.isLabel with
      | true => exact plain (plain_of_is_label real).1 fits
      | false =>
          have same : effect i'.opcode i'.operand = effect i.opcode i.operand := by
            rcases expands.real p i here isReal with single | hopped
            · exact (single.mirrors _ i' there real place).effect
            · exact (hopped.hop _ i' there real place).1
          obtain ⟨after, carries⟩ := carries_of_faultless here (consistent.faultless _ reaches)
          have below := carries.low here (suited _ (List.mem_of_getElem? here)) consistent low reaches
          obtain ⟨pops, pushes, read, enough, rfl, _⟩ := carries
          exact ⟨pops, pushes, same.trans read, enough, below⟩
  | within here isReal hopped reaches carries place =>
      have fits := carries.low here (suited _ (List.mem_of_getElem? here)) consistent low reaches
      cases real : i'.isLabel with
      | true => exact plain (plain_of_is_label real).1 fits
      | false => exact plain (hopped.branch _ i' there real place).1 fits

theorem shadows_faultless {d : Config} (shadows : Shadows code code' ord ranges d) :
    ¬Faulty code' (some n) d := by
  intro faulty
  cases faulty with
  | descriptor there call unreadable =>
      obtain ⟨pops, pushes, read, _⟩ := expands.shadows_carries consistent suited low shadows there
      rw [(effect_error_iff _ _).mpr ⟨call, unreadable⟩] at read
      cases read
  | underflow there read' below =>
      obtain ⟨pops, pushes, read, enough, _⟩ := expands.shadows_carries consistent suited low shadows there
      cases read.symm.trans read'
      exact Nat.not_lt.mpr enough below
  | overflow there read' same high =>
      obtain ⟨pops, pushes, read, _, fits⟩ := expands.shadows_carries consistent suited low shadows there
      cases read.symm.trans read'
      cases same
      exact Nat.not_lt.mpr fits high
  | unknownLabel there named absent =>
      obtain ⟨q, marks⟩ := expands.shadows_aims shadows there named
      exact absent q marks
  | fallsOff there continues last =>
      have inside := expands.shadows_inside consistent shadows there fun _ => continues
      exact Nat.not_lt.mpr last inside

end Bounded

theorem shadows_unique {q height height' : Nat}
    (shadows : Shadows code code' ord ranges ⟨q, height⟩)
    (shadows' : Shadows code code' ord ranges ⟨q, height'⟩) : height = height' := by
  -- no instruction stands in the middle of what another one became
  have apart : ∀ {p p' : Nat} {i i' : Instruction}, code[p]? = some i → i.isLabel = false →
      code[p']? = some i' → i'.isLabel = false → Hopped code code' ord p' i' →
      ord p ≠ ord p' + 1 := by
    intro p p' i i' here real there real' hopped same
    have next := hopped.next
    have inside := (List.getElem?_eq_some_iff.mp here).1
    have inside' := (List.getElem?_eq_some_iff.mp there).1
    rcases Nat.lt_trichotomy p p' with less | equal | more
    · have := expands.ord_lt here real less (Nat.le_of_lt inside')
      omega
    · rw [equal] at same
      omega
    · have := expands.ord_le (show p' + 1 ≤ p from more) (Nat.le_of_lt inside)
      omega
  cases shadows with
  | front here real reaches place =>
      cases shadows' with
      | front here' real' reaches' place' =>
          cases expands.ord_inj here real here' real' (place.symm.trans place')
          exact consistent.heights _ _ _ reaches reaches'
      | within here' real' hopped reaches' carries place' =>
          exact absurd (place.symm.trans place') (apart here real here' real' hopped)
  | within here real hopped reaches carries place =>
      cases shadows' with
      | front here' real' reaches' place' =>
          exact absurd (place'.symm.trans place) (apart here' real' here real hopped)
      | within here' real' hopped' reaches' carries' place' =>
          cases expands.ord_inj here real here' real' (Nat.succ.inj (place.symm.trans place'))
          cases here.symm.trans here'
          cases consistent.heights _ _ _ reaches reaches'
          exact carries.unique carries'

theorem consistent_of_low {n : UInt16} (nonempty : code ≠ [])
    (suited : ∀ i ∈ code, Code.Suited i.opcode i.operand)
    (low : ∀ c, Reaches code ranges none c → c.height ≤ n.toNat) :
    Consistent code' ranges' (some n) where
  labels := by
    intro range' member label named
    obtain ⟨range, _, ⟨_, start, _, starts, _⟩, ⟨_, stop, _, stops, _⟩, _, entry, _, enters, _⟩ :=
      expands.ranges range' member
    simp only [List.mem_cons, List.not_mem_nil, or_false] at named
    rcases named with rfl | rfl | rfl
    · exact ⟨start, starts.1⟩
    · exact ⟨stop, stops.1⟩
    · exact ⟨entry, enters.1⟩
  faultless := fun d reaches =>
    expands.shadows_faultless consistent suited low (expands.shadows_of_reached consistent nonempty reaches)
  heights := fun q height height' reaches reaches' =>
    expands.shadows_unique consistent (expands.shadows_of_reached consistent nonempty reaches)
      (expands.shadows_of_reached consistent nonempty reaches')

end Expands

end Expansion

end Flow

end JvmEdit
