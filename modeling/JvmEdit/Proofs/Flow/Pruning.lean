import JvmEdit.Proofs.Flow.GraphExact
import Mathlib.Data.List.NodupEquivFin
set_option autoImplicit false

namespace JvmEdit

namespace Flow

section Source

variable (code code' : List Instruction) (ranges : List TryRange) (limit : Option UInt16)

structure Prunes [Libraries] : Prop where
  distinct : code.Nodup
  part : code'.Sublist code
  labels : ∀ i ∈ code, i.isLabel = true → i ∈ code'
  reached : ∀ (p : Nat) i, code[p]? = some i → Reachable code ranges limit p → i ∈ code'

-- An instruction that stands at the one position before and at the other one afterwards.
def Moved (p q : Nat) : Prop := ∃ i, code[p]? = some i ∧ code'[q]? = some i

end Source

variable {code code' : List Instruction} {ranges : List TryRange} {limit : Option UInt16}

theorem moved_of_mem {p : Nat} {i : Instruction} (here : code[p]? = some i) (left : i ∈ code') :
    ∃ q, Moved code code' p q := by
  obtain ⟨q, after⟩ := List.mem_iff_getElem?.mp left
  exact ⟨q, i, here, after⟩

theorem Moved.after {p q : Nat} {i : Instruction} (moved : Moved code code' p q)
    (before : code[p]? = some i) : code'[q]? = some i := by
  obtain ⟨_, before', after⟩ := moved
  cases before.symm.trans before'
  exact after

theorem Moved.before {p q : Nat} {i : Instruction} (moved : Moved code code' p q)
    (after : code'[q]? = some i) : code[p]? = some i := by
  obtain ⟨_, before, after'⟩ := moved
  cases after.symm.trans after'
  exact before

theorem Moved.marks_iff {p q : Nat} (moved : Moved code code' p q) (label : LabelId) :
    Marks code p label ↔ Marks code' q label := by
  obtain ⟨_, before, after⟩ := moved
  rw [Marks, Marks, before, after]

section Positions

variable [Libraries] (prunes : Prunes code code' ranges limit)

include prunes

theorem Prunes.place {i : Instruction} {p q : Nat} (before : code[p]? = some i) (after : code[q]? = some i) :
    p = q := by
  obtain ⟨inside, atP⟩ := List.getElem?_eq_some_iff.mp before
  obtain ⟨inside', atQ⟩ := List.getElem?_eq_some_iff.mp after
  exact (prunes.distinct.getElem_inj_iff).mp (atP.trans atQ.symm)

theorem Prunes.places : ∃ f : Nat ↪o Nat, ∀ p q, Moved code code' p q ↔ q < code'.length ∧ p = f q := by
  obtain ⟨f, same⟩ := List.sublist_iff_exists_orderEmbedding_getElem?_eq.mp prunes.part
  refine ⟨f, fun p q => ⟨?_, ?_⟩⟩
  · intro ⟨i, before, after⟩
    exact ⟨(List.getElem?_eq_some_iff.mp after).1, prunes.place before ((same q).symm.trans after)⟩
  · intro ⟨inside, isPlace⟩
    have after := List.getElem?_eq_getElem inside
    exact ⟨_, isPlace ▸ (same q).symm.trans after, after⟩

theorem Prunes.lt_iff {p q p' q' : Nat} (moved : Moved code code' p q) (moved' : Moved code code' p' q') :
    p < p' ↔ q < q' := by
  obtain ⟨f, places⟩ := prunes.places
  rw [((places p q).mp moved).2, ((places p' q').mp moved').2, f.lt_iff_lt]

theorem Prunes.eq_iff {p q p' q' : Nat} (moved : Moved code code' p q) (moved' : Moved code code' p' q') :
    p = p' ↔ q = q' := by
  have less := prunes.lt_iff moved moved'
  have more := prunes.lt_iff moved' moved
  omega

theorem Prunes.back {q : Nat} (inside : q < code'.length) : ∃ p, Moved code code' p q := by
  obtain ⟨f, places⟩ := prunes.places
  exact ⟨f q, (places _ q).mpr ⟨inside, rfl⟩⟩

theorem Prunes.next {p q r : Nat} (moved : Moved code code' p q) (moved' : Moved code code' (p + 1) r) :
    r = q + 1 := by
  have later := (prunes.lt_iff moved moved').mp (Nat.lt_succ_self p)
  by_contra apart
  obtain ⟨_, _, after⟩ := moved'
  obtain ⟨between, moved''⟩ := prunes.back (q := q + 1) (by
    have := (List.getElem?_eq_some_iff.mp after).1
    omega)
  have above := (prunes.lt_iff moved moved'').mpr (Nat.lt_succ_self q)
  have below := (prunes.lt_iff moved'' ⟨_, ‹_›, after⟩).mpr (by omega)
  omega

theorem Prunes.first {q : Nat} (moved : Moved code code' 0 q) : q = 0 := by
  by_contra later
  obtain ⟨_, _, after⟩ := moved
  obtain ⟨p, moved'⟩ := prunes.back (q := 0) (by
    have := (List.getElem?_eq_some_iff.mp after).1
    omega)
  have := (prunes.lt_iff moved' ⟨_, ‹_›, after⟩).mpr (by omega)
  omega

theorem Prunes.live {p : Nat} (reachable : Reachable code ranges limit p) : ∃ q, Moved code code' p q := by
  obtain ⟨height, reaches⟩ := reachable
  have here := List.getElem?_eq_getElem reaches.inside
  exact moved_of_mem here (prunes.reached p _ here ⟨height, reaches⟩)

theorem Prunes.marked {p : Nat} {label : LabelId} (marks : Marks code p label) :
    ∃ q, Moved code code' p q := by
  obtain ⟨i, here, marked⟩ := Option.bind_eq_some_iff.mp marks
  apply moved_of_mem here
  apply prunes.labels i (List.mem_of_getElem? here)
  rw [Instruction.isLabel, Operand.isLabel]
  exact Option.isSome_of_mem marked

theorem Prunes.stands_iff {p q : Nat} (moved : Moved code code' p q) (label : LabelId) :
    Stands code label p ↔ Stands code' label q := by
  rw [Stands, Stands, moved.marks_iff]
  apply and_congr_right
  intro _
  constructor
  · intro last later less marks
    obtain ⟨p', moved'⟩ := prunes.back marks.inside
    exact last p' ((prunes.lt_iff moved moved').mpr less) ((moved'.marks_iff label).mpr marks)
  · intro last later less marks
    obtain ⟨q', moved'⟩ := prunes.marked marks
    exact last q' ((prunes.lt_iff moved moved').mp less) ((moved'.marks_iff label).mp marks)

end Positions

section Paths

variable [Libraries] (prunes : Prunes code code' ranges limit)

include prunes

theorem Prunes.flows {p q height : Nat} {d : Config} (moved : Moved code code' p q)
    (reaches : Reaches code ranges limit ⟨p, height⟩) (flows : Flows code limit ⟨p, height⟩ d) :
    ∃ q', Moved code code' d.position q' ∧ Flows code' limit ⟨q, height⟩ ⟨q', d.height⟩ := by
  have live : Reachable code ranges limit d.position :=
    Reachable.follow ⟨height, d.height, reaches, flows⟩
  obtain ⟨q', moved'⟩ := prunes.live live
  refine ⟨q', moved', ?_⟩
  have inside : q' < code'.length := by
    obtain ⟨_, _, after⟩ := moved'
    exact (List.getElem?_eq_some_iff.mp after).1
  cases flows with
  | target here carries named stands =>
      exact .target (moved.after here) carries named ((prunes.stands_iff moved' _).mp stands)
  | next here carries continues stays _ =>
      cases prunes.next moved moved'
      exact .next (moved.after here) carries continues stays inside
  | comeBack here carries calls _ =>
      cases prunes.next moved moved'
      exact .comeBack (moved.after here) carries calls inside

theorem Prunes.raises {p q height : Nat} {d : Config} (moved : Moved code code' p q)
    (raises : Raises code ranges ⟨p, height⟩ d) :
    ∃ q', Moved code code' d.position q' ∧ Raises code' ranges ⟨q, height⟩ ⟨q', d.height⟩ := by
  cases raises with
  | handler member starts stops enters after before =>
      obtain ⟨start', movedStart⟩ := prunes.marked starts.1
      obtain ⟨stop', movedStop⟩ := prunes.marked stops.1
      obtain ⟨entry', movedEntry⟩ := prunes.marked enters.1
      have above := prunes.lt_iff moved movedStart
      exact ⟨entry', movedEntry, .handler member ((prunes.stands_iff movedStart _).mp starts)
        ((prunes.stands_iff movedStop _).mp stops) ((prunes.stands_iff movedEntry _).mp enters)
        (by omega) ((prunes.lt_iff moved movedStop).mp before)⟩

theorem Prunes.raises_back {p q height : Nat} {d : Config} (moved : Moved code code' p q)
    (raises : Raises code' ranges ⟨q, height⟩ d) :
    ∃ p', Moved code code' p' d.position ∧ Raises code ranges ⟨p, height⟩ ⟨p', d.height⟩ := by
  cases raises with
  | handler member starts stops enters after before =>
      obtain ⟨start', movedStart⟩ := prunes.back starts.1.inside
      obtain ⟨stop', movedStop⟩ := prunes.back stops.1.inside
      obtain ⟨entry', movedEntry⟩ := prunes.back enters.1.inside
      have above := prunes.lt_iff moved movedStart
      exact ⟨entry', movedEntry, .handler member ((prunes.stands_iff movedStart _).mpr starts)
        ((prunes.stands_iff movedStop _).mpr stops) ((prunes.stands_iff movedEntry _).mpr enters)
        (by omega) ((prunes.lt_iff moved movedStop).mpr before)⟩

theorem Prunes.reaches {c : Config} (reaches : Reaches code ranges limit c) :
    ∃ q, Moved code code' c.position q ∧ Reaches code' ranges limit ⟨q, c.height⟩ := by
  obtain ⟨nonempty, path⟩ := reaches
  induction path with
  | refl =>
      obtain ⟨q, moved⟩ := prunes.live ⟨0, nonempty, .refl⟩
      cases prunes.first moved
      obtain ⟨_, _, after⟩ := moved
      have nonempty' := List.ne_nil_of_mem (List.mem_of_getElem? after)
      exact ⟨0, ⟨_, ‹_›, after⟩, nonempty', .refl⟩
  | tail before steps ih =>
      obtain ⟨q, moved, nonempty', path'⟩ := ih
      rcases steps with flows | raises
      · obtain ⟨q', moved', flows'⟩ := prunes.flows moved ⟨nonempty, before⟩ flows
        exact ⟨q', moved', nonempty', path'.tail (.inl flows')⟩
      · obtain ⟨q', moved', raises'⟩ := prunes.raises moved raises
        exact ⟨q', moved', nonempty', path'.tail (.inr raises')⟩

section Consistent

variable (consistent : Consistent code ranges limit)

include consistent

theorem Prunes.next_inside {p q height : Nat} {i : Instruction} (moved : Moved code code' p q)
    (reaches : Reaches code ranges limit ⟨p, height⟩) (here : code[p]? = some i)
    (continues : i.continues = true) :
    p + 1 < code.length ∧ Moved code code' (p + 1) (q + 1) := by
  have faultless := consistent.faultless _ reaches
  have inside : p + 1 < code.length :=
    Nat.lt_of_not_le fun last => faultless (.fallsOff here continues last)
  obtain ⟨after, carries⟩ := carries_of_faultless here faultless
  have live : Reachable code ranges limit (p + 1) := by
    cases calls : i.callsSubroutine with
    | false => exact Reachable.follow ⟨height, after, reaches, .next here carries continues calls inside⟩
    | true => exact Reachable.follow ⟨height, height, reaches, .comeBack here carries calls inside⟩
  obtain ⟨q', moved'⟩ := prunes.live live
  cases prunes.next moved moved'
  exact ⟨inside, moved'⟩

theorem Prunes.flows_back {p q height : Nat} {d : Config} (moved : Moved code code' p q)
    (reaches : Reaches code ranges limit ⟨p, height⟩) (flows : Flows code' limit ⟨q, height⟩ d) :
    ∃ p', Moved code code' p' d.position ∧ Flows code limit ⟨p, height⟩ ⟨p', d.height⟩ := by
  cases flows with
  | target there carries named stands =>
      obtain ⟨goal, movedGoal⟩ := prunes.back stands.1.inside
      exact ⟨goal, movedGoal, .target (moved.before there) carries named
        ((prunes.stands_iff movedGoal _).mpr stands)⟩
  | next there carries continues stays _ =>
      have here := moved.before there
      obtain ⟨inside, moved'⟩ := prunes.next_inside consistent moved reaches here continues
      exact ⟨p + 1, moved', .next here carries continues stays inside⟩
  | comeBack there carries calls _ =>
      have here := moved.before there
      obtain ⟨inside, moved'⟩ :=
        prunes.next_inside consistent moved reaches here (continues_of_calls _ calls)
      exact ⟨p + 1, moved', .comeBack here carries calls inside⟩

theorem Prunes.reaches_back {c : Config}
    (reaches : Reaches code' ranges limit c) :
    ∃ p, Moved code code' p c.position ∧ Reaches code ranges limit ⟨p, c.height⟩ := by
  obtain ⟨nonempty', path⟩ := reaches
  have nonempty : code ≠ [] := fun none => nonempty' (List.sublist_nil.mp (none ▸ prunes.part))
  induction path with
  | refl =>
      have reaches : Reaches code ranges limit ⟨0, 0⟩ := ⟨nonempty, .refl⟩
      obtain ⟨q, moved⟩ := prunes.live ⟨0, reaches⟩
      cases prunes.first moved
      exact ⟨0, moved, reaches⟩
  | tail _ steps ih =>
      obtain ⟨p, moved, reaches⟩ := ih
      rcases steps with flows | raises
      · obtain ⟨p', moved', flows'⟩ := prunes.flows_back consistent moved reaches flows
        exact ⟨p', moved', nonempty, reaches.2.tail (.inl flows')⟩
      · obtain ⟨p', moved', raises'⟩ := prunes.raises_back moved raises
        exact ⟨p', moved', nonempty, reaches.2.tail (.inr raises')⟩

theorem Prunes.reaches_iff {p q : Nat}
    (moved : Moved code code' p q) (height : Nat) :
    Reaches code ranges limit ⟨p, height⟩ ↔ Reaches code' ranges limit ⟨q, height⟩ := by
  constructor
  · intro reaches
    obtain ⟨q', moved', reaches'⟩ := prunes.reaches reaches
    cases (prunes.eq_iff moved moved').mp rfl
    exact reaches'
  · intro reaches
    obtain ⟨p', moved', reaches'⟩ := prunes.reaches_back consistent reaches
    cases (prunes.eq_iff moved moved').mpr rfl
    exact reaches'

theorem Prunes.follows_iff {p q p' q' : Nat}
    (moved : Moved code code' p q) (moved' : Moved code code' p' q') :
    Follows code ranges limit p p' ↔ Follows code' ranges limit q q' := by
  constructor
  · intro ⟨before, after, reaches, flows⟩
    obtain ⟨r, movedTarget, flows'⟩ := prunes.flows moved reaches flows
    cases (prunes.eq_iff moved' movedTarget).mp rfl
    exact ⟨before, after, (prunes.reaches_iff consistent moved before).mp reaches, flows'⟩
  · intro ⟨before, after, reaches, flows⟩
    have reaches' := (prunes.reaches_iff consistent moved before).mpr reaches
    obtain ⟨r, movedTarget, flows'⟩ := prunes.flows_back consistent moved reaches' flows
    cases (prunes.eq_iff moved' movedTarget).mpr rfl
    exact ⟨before, after, reaches', flows'⟩

theorem Prunes.throws_iff {p q p' q' : Nat}
    (moved : Moved code code' p q) (moved' : Moved code code' p' q') :
    Throws code ranges limit p p' ↔ Throws code' ranges limit q q' := by
  constructor
  · intro ⟨before, after, reaches, raises⟩
    obtain ⟨r, movedTarget, raises'⟩ := prunes.raises moved raises
    cases (prunes.eq_iff moved' movedTarget).mp rfl
    exact ⟨before, after, (prunes.reaches_iff consistent moved before).mp reaches, raises'⟩
  · intro ⟨before, after, reaches, raises⟩
    obtain ⟨r, movedTarget, raises'⟩ := prunes.raises_back moved raises
    cases (prunes.eq_iff moved' movedTarget).mpr rfl
    exact ⟨before, after, (prunes.reaches_iff consistent moved before).mpr reaches, raises'⟩

theorem Prunes.faultless {p q height : Nat}
    (moved : Moved code code' p q) (reaches : Reaches code ranges limit ⟨p, height⟩) :
    ¬Faulty code' limit ⟨q, height⟩ := by
  have faultless := consistent.faultless _ reaches
  intro faulty
  cases faulty with
  | descriptor there call unreadable =>
      exact faultless (.descriptor (moved.before there) call unreadable)
  | underflow there effect low => exact faultless (.underflow (moved.before there) effect low)
  | overflow there effect bounded high =>
      exact faultless (.overflow (moved.before there) effect bounded high)
  | unknownLabel there named absent =>
      apply faultless (.unknownLabel (moved.before there) named _)
      intro r marks
      obtain ⟨r', moved'⟩ := prunes.marked marks
      exact absent r' ((moved'.marks_iff _).mp marks)
  | fallsOff there continues last =>
      obtain ⟨_, _, _, after⟩ :=
        prunes.next_inside consistent moved reaches (moved.before there) continues
      have := (List.getElem?_eq_some_iff.mp after).1
      omega

theorem Prunes.stays_consistent :
    Consistent code' ranges limit where
  labels range member label named := by
    obtain ⟨p, marks⟩ := consistent.labels range member label named
    obtain ⟨q, moved⟩ := prunes.marked marks
    exact ⟨q, (moved.marks_iff label).mp marks⟩
  faultless c reaches := by
    obtain ⟨p, moved, reaches'⟩ := prunes.reaches_back consistent reaches
    exact prunes.faultless consistent moved reaches'
  heights q height height' reaches reaches' := by
    obtain ⟨p, moved, before⟩ := prunes.reaches_back consistent reaches
    exact consistent.heights p height height' before
      ((prunes.reaches_iff consistent moved height').mpr reaches')

end Consistent

end Paths

end Flow

end JvmEdit
