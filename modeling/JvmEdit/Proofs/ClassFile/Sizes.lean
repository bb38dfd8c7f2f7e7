import JvmEdit.Proofs.ClassFile.Assembly
set_option autoImplicit false

namespace JvmEdit

namespace Assembler

section Extent

-- Where lines end that start at an offset.
def extent (offset : Nat) : List Line → List Bool → Nat
  | line :: lines, isFar :: far => extent (offset + size line offset isFar) lines far
  | _, _ => offset

theorem offset_list_last (offset : Nat) (lines : List Line) (far : List Bool)
    (same : far.length = lines.length) :
    (offsetList offset lines far).getD lines.length 0 = extent offset lines far := by
  induction lines generalizing offset far with
  | nil => rfl
  | cons line lines ih =>
      cases far with
      | nil => cases same
      | cons isFar far =>
          rw [offsetList, List.length_cons, List.getD_cons_succ, ih _ far (Nat.succ.inj same), extent]

-- The layout of lines whose far branches are marked.
def laidOut (lines : List Line) (far : List Bool) : Layout := ⟨offsetsOnto #[] 0 lines far, far⟩

theorem length_laid_out (lines : List Line) (far : List Bool) (same : far.length = lines.length) :
    (laidOut lines far).length = extent 0 lines far := by
  rw [laidOut, layout_length lines far same, offset_list_last 0 lines far same]

theorem size_mono (line : Line) (offset offset' : Nat) (isFar isFar' : Bool) (later : offset ≤ offset')
    (farther : isFar = true → isFar' = true) :
    offset + size line offset isFar ≤ offset' + size line offset' isFar' := by
  obtain ⟨op, operand, index⟩ := line
  cases operand with
  | jump label =>
      have jump : size ⟨op, .jump label, index⟩ offset isFar ≤ size ⟨op, .jump label, index⟩ offset' isFar' := by
        cases isFar with
        | true =>
            rw [farther rfl]
            exact Nat.le_refl _
        | false =>
            unfold size
            dsimp only
            cases isWideBranch op with
            | true => simp
            | false => cases isFar' <;> cases hasWideForm op <;> simp
      omega
  | switch otherwise cases =>
      have aligned : offset + Code.padding offset ≤ offset' + Code.padding offset' := by
        unfold Code.padding
        omega
      unfold size
      dsimp only
      split <;> omega
  | _ => exact Nat.add_le_add_right later _

theorem size_le (line : Line) (offset offset' : Nat) (isFar isFar' : Bool) :
    size line offset isFar ≤ 3 * size line offset' isFar' := by
  obtain ⟨op, operand, index⟩ := line
  cases operand with
  | jump label =>
      unfold size
      dsimp only
      cases isWideBranch op with
      | true => simp
      | false => cases isFar <;> cases isFar' <;> cases hasWideForm op <;> simp
  | switch otherwise cases =>
      have aligned : Code.padding offset ≤ 3 := by
        unfold Code.padding
        omega
      unfold size
      dsimp only
      split <;> omega
  | _ => exact Nat.le_mul_of_pos_left _ (by omega)

theorem extent_mono (lines : List Line) (far far' : List Bool) (offset offset' : Nat)
    (later : offset ≤ offset') (farther : List.Forall₂ (fun isFar isFar' => isFar = true → isFar' = true) far far') :
    extent offset lines far ≤ extent offset' lines far' := by
  induction lines generalizing far far' offset offset' with
  | nil => cases farther <;> exact later
  | cons line lines ih =>
      cases farther with
      | nil => exact later
      | cons first rest => exact ih _ _ _ _ (size_mono line offset offset' _ _ later first) rest

theorem extent_le (lines : List Line) (far far' : List Bool) (offset offset' : Nat)
    (same : far.length = far'.length) :
    extent offset lines far + 3 * offset' ≤ 3 * extent offset' lines far' + offset := by
  induction lines generalizing far far' offset offset' with
  | nil => exact Nat.le_of_eq (Nat.add_comm _ _)
  | cons line lines ih =>
      cases far with
      | nil =>
          rw [List.eq_nil_of_length_eq_zero same.symm]
          exact Nat.le_of_eq (Nat.add_comm _ _)
      | cons isFar far =>
          cases far' with
          | nil => cases same
          | cons isFar' far' =>
              have first := size_le line offset offset' isFar isFar'
              have rest := ih far far' (offset + size line offset isFar)
                (offset' + size line offset' isFar') (Nat.succ.inj same)
              simp only [extent]
              omega

end Extent

def allShort (lines : List Line) : List Bool := List.replicate lines.length false

section Rounds

variable (c : Context) (lines : List Line)

-- The marks that the rounds go through, whatever the lengths they lead to.
inductive Context.Reaches : List Bool → Prop
  | start : Reaches (allShort lines)
  | widen (far widened : List Bool) (before : Reaches far)
      (wider : c.widenOnto (laidOut lines far) [] 0 lines far = .ok widened) : Reaches widened

theorem widened_of_judged (layout : Layout) (offset : Nat) (line : Line) (isFar wide : Bool)
    (judged : Judged c layout offset line isFar wide) (already : isFar = true) : wide = true := by
  unfold Judged at judged
  split at judged
  · rwa [already, Bool.true_or, if_pos rfl] at judged
  · rw [judged, already]

theorem widen_onto_farther (layout : Layout) (far widened : List Bool) (same : far.length = lines.length)
    (wider : c.widenOnto layout [] 0 lines far = .ok widened) :
    List.Forall₂ (fun isFar wide => isFar = true → wide = true) far widened := by
  obtain ⟨more, isMore, length, judged⟩ := widen_onto_spec c layout [] 0 lines far widened same wider
  rw [List.reverse_nil, List.nil_append] at isMore
  subst isMore
  refine List.forall₂_iff_get.mpr ⟨by omega, fun i inside insideMore => ?_⟩
  have small : i < lines.length := by omega
  refine widened_of_judged c layout _ lines[i] _ _ (judged i _ _ _ ?_ ?_ ?_)
  · exact List.getElem?_eq_getElem _
  · exact List.getElem?_eq_getElem _
  · exact List.getElem?_eq_getElem _

namespace Context.Reaches

variable {c lines} {far : List Bool}

theorem length (reached : c.Reaches lines far) : far.length = lines.length := by
  induction reached with
  | start => exact List.length_replicate
  | widen far widened _ wider same =>
      rw [← (widen_onto_farther c lines _ far widened same wider).length_eq, same]

theorem farther (reached : c.Reaches lines far) : List.Forall₂ (fun isFar wide => isFar = true → wide = true)
    (allShort lines) far := by
  refine List.forall₂_iff_get.mpr ⟨by rw [allShort, List.length_replicate, reached.length], fun i _ _ => ?_⟩
  simp [allShort]

theorem extent_ge (reached : c.Reaches lines far) : extent 0 lines (allShort lines) ≤ extent 0 lines far :=
  extent_mono lines _ _ 0 0 (Nat.le_refl 0) reached.farther

theorem extent_le (reached : c.Reaches lines far) :
    extent 0 lines far ≤ 3 * extent 0 lines (allShort lines) := by
  have bound := Assembler.extent_le lines far (allShort lines) 0 0
    (by rw [reached.length, allShort, List.length_replicate])
  omega

end Context.Reaches

theorem count_short_lt (far widened : List Bool)
    (farther : List.Forall₂ (fun isFar wide => isFar = true → wide = true) far widened)
    (changed : widened ≠ far) : widened.count false < far.count false := by
  induction farther with
  | nil => exact absurd rfl changed
  | @cons isFar wide far widened first rest ih =>
      have fewer : widened.count false ≤ far.count false := by
        by_cases same : widened = far
        · exact Nat.le_of_eq (by rw [same])
        · exact Nat.le_of_lt (ih same)
      cases isFar with
      | true =>
          rw [first rfl] at changed ⊢
          have changedRest : widened ≠ far := fun same => changed (by rw [same])
          simpa using ih changedRest
      | false =>
          cases wide with
          | true =>
              simp only [List.count_cons]
              simp
              omega
          | false =>
              have changedRest : widened ≠ far := fun same => changed (by rw [same])
              simpa using ih changedRest

theorem layout_from_succ (rounds : Nat) (far : List Bool) (same : far.length = lines.length) :
    c.layoutFrom lines (rounds + 1) far =
      if UInt32.size ≤ extent 0 lines far then .error .arithmetic
      else if 65535 < extent 0 lines far then .error (.codeTooLarge c.method)
      else (c.widenOnto (laidOut lines far) [] 0 lines far) >>= fun widened =>
        if widened = far then .ok (laidOut lines far) else c.layoutFrom lines rounds widened := by
  rw [← length_laid_out lines far same]
  rfl

-- The marks of a round that is tried. Only those of the first may lead to a code that is too long.
structure Context.Tries (far : List Bool) : Prop where
  reached : c.Reaches lines far
  checked : far = allShort lines ∨ extent 0 lines (allShort lines) ≤ 65535

namespace Context.Tries

variable {c lines} {far : List Bool}

theorem start : c.Tries lines (allShort lines) := ⟨.start, .inl rfl⟩

theorem widen (tried : c.Tries lines far) (widened : List Bool) (fits : extent 0 lines far ≤ 65535)
    (wider : c.widenOnto (laidOut lines far) [] 0 lines far = .ok widened) : c.Tries lines widened :=
  ⟨.widen far widened tried.reached wider, .inr (Nat.le_trans tried.reached.extent_ge fits)⟩

theorem extent_lt (tried : c.Tries lines far) (few : extent 0 lines (allShort lines) < UInt32.size) :
    extent 0 lines far < UInt32.size := by
  rcases tried.checked with isStart | fits
  · rw [isStart]
    exact few
  · have bound := tried.reached.extent_le
    have room : 3 * 65535 < UInt32.size := by decide
    omega

end Context.Tries

-- How rounds end: with the marks settled, or with a round that is too long or names no label.
inductive Context.Ends : Except EncodeError Layout → Prop
  | settled (last : List Bool) (tried : c.Tries lines last) (fits : extent 0 lines last ≤ 65535) :
      Ends (.ok (laidOut lines last))
  | overflowing (last : List Bool) (tried : c.Tries lines last)
      (huge : UInt32.size ≤ extent 0 lines last) : Ends (.error .arithmetic)
  | tooLong (last : List Bool) (tried : c.Tries lines last) (long : 65535 < extent 0 lines last)
      (counted : extent 0 lines last < UInt32.size) : Ends (.error (.codeTooLarge c.method))
  | lost (last : List Bool) (tried : c.Tries lines last) (e : EncodeError)
      (unknown : c.widenOnto (laidOut lines last) [] 0 lines last = .error e) : Ends (.error e)

theorem layout_from_ends (rounds : Nat) (far : List Bool) (tried : c.Tries lines far)
    (enough : far.count false < rounds) : c.Ends lines (c.layoutFrom lines rounds far) := by
  induction rounds generalizing far with
  | zero => cases enough
  | succ rounds ih =>
      rw [layout_from_succ c lines rounds far tried.reached.length]
      by_cases huge : UInt32.size ≤ extent 0 lines far
      · rw [if_pos huge]
        exact .overflowing far tried huge
      rw [if_neg huge]
      by_cases long : 65535 < extent 0 lines far
      · rw [if_pos long]
        exact .tooLong far tried long (by omega)
      rw [if_neg long]
      cases wider : c.widenOnto (laidOut lines far) [] 0 lines far with
      | error e => exact .lost far tried e wider
      | ok widened =>
          change c.Ends lines (if widened = far then _ else _)
          by_cases same : widened = far
          · rw [if_pos same]
            exact .settled far tried (by omega)
          · rw [if_neg same]
            have fewer := count_short_lt far widened
              (widen_onto_farther c lines _ far widened tried.reached.length wider) same
            exact ih widened (tried.widen widened (by omega) wider) (by omega)

theorem layout_ends : c.Ends lines (c.layout lines) := by
  refine layout_from_ends c lines _ _ .start ?_
  have all : (allShort lines).count false ≤ (allShort lines).length := List.count_le_length
  rw [allShort, List.length_replicate] at all
  exact Nat.lt_succ_of_le all

theorem layout_of_reaches (far : List Bool) (reached : c.Reaches lines far) :
    (c.Tries lines far ∧ ∃ rounds, far.count false < rounds ∧
      c.layout lines = c.layoutFrom lines rounds far) ∨
    ∃ earlier, c.Tries lines earlier ∧ 65535 < extent 0 lines earlier ∧ ∃ rounds,
      c.layout lines = c.layoutFrom lines (rounds + 1) earlier := by
  induction reached with
  | start =>
      refine .inl ⟨.start, lines.length + 1, ?_, rfl⟩
      have all : (allShort lines).count false ≤ (allShort lines).length := List.count_le_length
      rw [allShort, List.length_replicate] at all
      exact Nat.lt_succ_of_le all
  | widen far widened before wider ih =>
      rcases ih with ⟨tried, rounds, enough, same⟩ | earlier
      · cases rounds with
        | zero => cases enough
        | succ rounds =>
            by_cases long : 65535 < extent 0 lines far
            · exact .inr ⟨far, tried, long, rounds, same⟩
            have after := tried.widen widened (by omega) wider
            by_cases settled : widened = far
            · subst settled
              exact .inl ⟨tried, rounds + 1, enough, same⟩
            · have fewer := count_short_lt far widened
                (widen_onto_farther c lines _ far widened tried.reached.length wider) settled
              refine .inl ⟨after, rounds, by omega, ?_⟩
              have room : 65535 < UInt32.size := by decide
              rw [same, layout_from_succ c lines rounds far tried.reached.length, if_neg (by omega),
                if_neg long, wider]
              exact if_neg settled
      · exact .inr earlier

theorem error_distance (layout : Layout) (offset : Nat) (label : LabelId) (e : EncodeError)
    (failed : c.distance layout offset label = .error e) : e = .unknownLabel c.method label := by
  rw [Context.distance, Context.target] at failed
  cases found : c.labels.lookup label with
  | none =>
      rw [found] at failed
      exact (Except.error.inj failed).symm
  | some position =>
      rw [found] at failed
      cases failed

theorem error_widen_onto (layout : Layout) (reversed : List Bool) (position : Nat) (all : List Line)
    (far : List Bool) (e : EncodeError) (failed : c.widenOnto layout reversed position all far = .error e) :
    ∃ label, e = .unknownLabel c.method label := by
  induction all generalizing reversed position far with
  | nil =>
      unfold Context.widenOnto at failed
      cases failed
  | cons line all ih =>
      cases far with
      | nil =>
          unfold Context.widenOnto at failed
          cases failed
      | cons isFar far =>
          rw [Context.widenOnto] at failed
          split at failed
          · rename_i label _
            split at failed
            · exact ih _ _ _ failed
            · cases found : c.distance layout (layout.offset position) label with
              | ok distance =>
                  rw [found] at failed
                  exact ih _ _ _ failed
              | error fault =>
                  rw [found] at failed
                  cases failed
                  exact ⟨label, error_distance c layout _ label e found⟩
          · exact ih _ _ _ failed

theorem layout_arithmetic_iff :
    c.layout lines = .error .arithmetic ↔ UInt32.size ≤ extent 0 lines (allShort lines) := by
  constructor
  · intro failed
    have ends := layout_ends c lines
    rw [failed] at ends
    by_contra few
    cases ends with
    | overflowing last tried huge =>
        have small := tried.extent_lt (by omega)
        omega
    | lost last tried _ unknown =>
        obtain ⟨label, same⟩ := error_widen_onto c _ _ _ _ _ _ unknown
        cases same
  · intro huge
    rw [Context.layout, ← allShort, layout_from_succ c lines _ _ (by rw [allShort, List.length_replicate]), if_pos huge]

theorem rejects_of_tries (far : List Bool) (rounds : Nat) (tried : c.Tries lines far)
    (few : extent 0 lines (allShort lines) < UInt32.size) (long : 65535 < extent 0 lines far) :
    c.layoutFrom lines (rounds + 1) far = .error (.codeTooLarge c.method) := by
  have counted := tried.extent_lt few
  rw [layout_from_succ c lines rounds far tried.reached.length, if_neg (by omega), if_pos long]

theorem layout_code_too_large_iff (name : String) : c.layout lines = .error (.codeTooLarge name) ↔
    name = c.method ∧ extent 0 lines (allShort lines) < UInt32.size ∧
      ∃ far, c.Reaches lines far ∧ 65535 < extent 0 lines far := by
  constructor
  · intro failed
    have few : extent 0 lines (allShort lines) < UInt32.size := by
      by_contra huge
      rw [(layout_arithmetic_iff c lines).mpr (by omega)] at failed
      cases failed
    have ends := layout_ends c lines
    rw [failed] at ends
    cases ends with
    | tooLong last tried long _ => exact ⟨rfl, few, last, tried.reached, long⟩
    | lost last tried _ unknown =>
        obtain ⟨label, same⟩ := error_widen_onto c _ _ _ _ _ _ unknown
        cases same
  · rintro ⟨rfl, few, far, reached, long⟩
    rcases layout_of_reaches c lines far reached with
      ⟨tried, rounds, enough, same⟩ | ⟨earlier, tried, beyond, rounds, same⟩
    · obtain ⟨rest, rfl⟩ := Nat.exists_eq_add_of_lt enough
      rw [same]
      exact rejects_of_tries c lines far _ tried few long
    · rw [same]
      exact rejects_of_tries c lines earlier rounds tried few beyond

end Rounds

end Assembler

end JvmEdit
