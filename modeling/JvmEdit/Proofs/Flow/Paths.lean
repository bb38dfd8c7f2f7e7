import JvmEdit.Flow.Analysis
import Mathlib.Logic.Relation
set_option autoImplicit false

namespace JvmEdit

namespace Flow

-- The label marks the instruction at that position.
def Marks (code : List Instruction) (position : Nat) (label : LabelId) : Prop :=
  code[position]?.bind Instruction.label? = some label

def enterLabel (state : List (LabelId × Nat) × Nat) (i : Instruction) : List (LabelId × Nat) × Nat :=
  match i.label? with
  | some label => ((label, state.2) :: state.1, state.2 + 1)
  | none => (state.1, state.2 + 1)

theorem label_table_eq (code : List Instruction) :
    labelTable code = (code.foldl enterLabel ([], 0)).1 := rfl

theorem foldl_enter_label_snd (code : List Instruction) (table : List (LabelId × Nat)) (n : Nat) :
    (code.foldl enterLabel (table, n)).2 = n + code.length := by
  induction code generalizing table n with
  | nil => rfl
  | cons i code ih =>
      rw [List.foldl_cons, enterLabel]
      split
      · rw [ih, List.length_cons]
        omega
      · rw [ih, List.length_cons]
        omega

theorem lookup_foldl_enter_label (code : List Instruction) (table : List (LabelId × Nat)) (n : Nat)
    (label : LabelId) (absent : label ∉ code.filterMap Instruction.label?) :
    (code.foldl enterLabel (table, n)).1.lookup label = table.lookup label := by
  induction code generalizing table n with
  | nil => rfl
  | cons i code ih =>
      rw [List.foldl_cons, enterLabel]
      cases marked : i.label? with
      | none =>
          rw [List.filterMap_cons_none marked] at absent
          exact ih table (n + 1) absent
      | some other =>
          rw [List.filterMap_cons_some marked, List.mem_cons, not_or] at absent
          dsimp only
          rw [ih _ _ absent.2, List.lookup_cons, beq_false_of_ne absent.1]

theorem lookup_last (code : List Instruction) (position : Nat) (label : LabelId)
    (marks : Marks code position label)
    (absent : label ∉ (code.drop (position + 1)).filterMap Instruction.label?) :
    (labelTable code).lookup label = some position := by
  obtain ⟨i, here, marked⟩ := Option.bind_eq_some_iff.mp marks
  obtain ⟨inside, isHere⟩ := List.getElem?_eq_some_iff.mp here
  have split : code = code.take position ++ i :: code.drop (position + 1) := by
    rw [← isHere, List.getElem_cons_drop, List.take_append_drop]
  have before : (code.take position).length = position := by
    rw [List.length_take]
    omega
  have count := foldl_enter_label_snd (code.take position) [] 0
  rw [before, Nat.zero_add] at count
  rw [label_table_eq]
  conv => lhs; rw [split]
  rw [List.foldl_append, List.foldl_cons, enterLabel, marked]
  dsimp only
  rw [lookup_foldl_enter_label _ _ _ label absent, count, List.lookup_cons_self]

theorem lookup_label_table (code : List Instruction)
    (unique : (code.filterMap Instruction.label?).Nodup) (position : Nat) (label : LabelId)
    (marks : Marks code position label) : (labelTable code).lookup label = some position := by
  refine lookup_last code position label marks ?_
  obtain ⟨i, here, marked⟩ := Option.bind_eq_some_iff.mp marks
  obtain ⟨inside, isHere⟩ := List.getElem?_eq_some_iff.mp here
  have split : code = code.take position ++ i :: code.drop (position + 1) := by
    rw [← isHere, List.getElem_cons_drop, List.take_append_drop]
  rw [split, List.filterMap_append, List.filterMap_cons_some marked] at unique
  exact (List.nodup_cons.mp (List.nodup_append.mp unique).2.1).1

theorem mem_foldl_enter_label (code : List Instruction) (table : List (LabelId × Nat)) (n : Nat)
    (label : LabelId) (position : Nat)
    (member : (label, position) ∈ (code.foldl enterLabel (table, n)).1) :
    (label, position) ∈ table ∨ ∃ k, position = n + k ∧ Marks code k label := by
  induction code generalizing table n with
  | nil => exact Or.inl member
  | cons i code ih =>
      rw [List.foldl_cons, enterLabel] at member
      cases marked : i.label? with
      | none =>
          rw [marked] at member
          rcases ih table (n + 1) member with before | ⟨k, isPosition, marks⟩
          · exact Or.inl before
          · exact Or.inr ⟨k + 1, by omega, marks⟩
      | some other =>
          rw [marked] at member
          rcases ih _ (n + 1) member with before | ⟨k, isPosition, marks⟩
          · rcases List.mem_cons.mp before with here | before
            · cases here
              exact Or.inr ⟨0, rfl, marked⟩
            · exact Or.inl before
          · exact Or.inr ⟨k + 1, by omega, marks⟩

theorem marks_of_lookup (code : List Instruction) (label : LabelId) (position : Nat)
    (found : (labelTable code).lookup label = some position) : Marks code position label := by
  obtain ⟨before, after, split, _⟩ := List.lookup_eq_some_iff.mp found
  have member : (label, position) ∈ labelTable code := by
    rw [split]
    exact List.mem_append_right _ (List.mem_cons_self ..)
  rcases mem_foldl_enter_label code [] 0 label position member with none | ⟨k, rfl, marks⟩
  · cases none
  · rwa [Nat.zero_add]

end Flow

namespace Instruction

-- Control can go on to the instruction behind.
def continues (i : Instruction) : Bool :=
  match i.operand with
  | .jump _ => !i.opcode.isUnconditionalBranch
  | .switch .. => false
  | _ => !i.opcode.isExit

-- Control goes to a subroutine and comes back with the height it left with.
def callsSubroutine (i : Instruction) : Bool :=
  match i.operand with
  | .jump _ => i.opcode.isSubroutineCall
  | _ => false

-- The method descriptor that a call is made with.
def callDescriptor? (i : Instruction) : Option String :=
  match i.operand with
  | .call call => some call.descriptor
  | .dynamicCall call => some call.descriptor
  | _ => none

end Instruction

namespace Flow

structure Config where
  position : Nat
  height : Nat
  deriving DecidableEq, Repr

-- The label stands at that position: the last one that it marks.
def Stands (code : List Instruction) (label : LabelId) (position : Nat) : Prop :=
  Marks code position label ∧ ∀ later, position < later → ¬Marks code later label

-- The instruction takes the stack from one height to another within its bounds.
def Carries [Libraries] (limit : Option UInt16) (i : Instruction) (before after : Nat) : Prop :=
  ∃ pops pushes, effect i.opcode i.operand = .ok (pops, pushes) ∧ pops ≤ before ∧
    after = before - pops + pushes ∧ ∀ bound, limit = some bound → after ≤ bound.toNat

-- Control moves on from an instruction that has been carried out.
inductive Flows [Libraries] (code : List Instruction) (limit : Option UInt16) : Config → Config → Prop
  | target {position before after goal : Nat} {i : Instruction} {label : LabelId}
      (here : code[position]? = some i) (carries : Carries limit i before after)
      (named : label ∈ i.targets) (stands : Stands code label goal) :
      Flows code limit ⟨position, before⟩ ⟨goal, after⟩
  | next {position before after : Nat} {i : Instruction}
      (here : code[position]? = some i) (carries : Carries limit i before after)
      (continues : i.continues = true) (stays : i.callsSubroutine = false)
      (inside : position + 1 < code.length) :
      Flows code limit ⟨position, before⟩ ⟨position + 1, after⟩
  | comeBack {position before after : Nat} {i : Instruction}
      (here : code[position]? = some i) (carries : Carries limit i before after)
      (calls : i.callsSubroutine = true) (inside : position + 1 < code.length) :
      Flows code limit ⟨position, before⟩ ⟨position + 1, before⟩

-- Control enters a handler whose range covers the position, the exception alone on the stack.
inductive Raises (code : List Instruction) (ranges : List TryRange) : Config → Config → Prop
  | handler {position height start stop entry : Nat} {range : TryRange} (member : range ∈ ranges)
      (starts : Stands code range.start start) (stops : Stands code range.stop stop)
      (enters : Stands code range.handler entry) (after : start ≤ position)
      (before : position < stop) :
      Raises code ranges ⟨position, height⟩ ⟨entry, 1⟩

section Body

variable (code : List Instruction) (ranges : List TryRange) (limit : Option UInt16)

def Steps [Libraries] (c d : Config) : Prop := Flows code limit c d ∨ Raises code ranges c d

-- Some finite path from the start of the code comes to the configuration.
def Reaches [Libraries] (c : Config) : Prop :=
  code ≠ [] ∧ Relation.ReflTransGen (Steps code ranges limit) ⟨0, 0⟩ c

-- Carrying the instruction out goes wrong.
inductive Faulty [Libraries] : Config → Prop
  | descriptor {position height : Nat} {i : Instruction} {text : String}
      (here : code[position]? = some i) (call : i.callDescriptor? = some text)
      (unreadable : Descriptor.methodSlots? text = none) : Faulty ⟨position, height⟩
  | underflow {position height pops pushes : Nat} {i : Instruction}
      (here : code[position]? = some i) (effect : effect i.opcode i.operand = .ok (pops, pushes))
      (low : height < pops) : Faulty ⟨position, height⟩
  | overflow {position height pops pushes : Nat} {i : Instruction} {bound : UInt16}
      (here : code[position]? = some i) (effect : effect i.opcode i.operand = .ok (pops, pushes))
      (bounded : limit = some bound) (high : bound.toNat < height - pops + pushes) :
      Faulty ⟨position, height⟩
  | unknownLabel {position height : Nat} {i : Instruction} {label : LabelId}
      (here : code[position]? = some i) (named : label ∈ i.targets)
      (absent : ∀ p, ¬Marks code p label) : Faulty ⟨position, height⟩
  | fallsOff {position height : Nat} {i : Instruction} (here : code[position]? = some i)
      (continues : i.continues = true) (last : code.length ≤ position + 1) :
      Faulty ⟨position, height⟩

-- What a body must satisfy to be analysed.
structure Consistent [Libraries] : Prop where
  labels : ∀ range ∈ ranges, ∀ label ∈ [range.start, range.stop, range.handler],
    ∃ position, Marks code position label
  faultless : ∀ c, Reaches code ranges limit c → ¬Faulty code limit c
  heights : ∀ position height height', Reaches code ranges limit ⟨position, height⟩ →
    Reaches code ranges limit ⟨position, height'⟩ → height = height'

end Body

theorem Stands.unique {code : List Instruction} {label : LabelId} {position position' : Nat}
    (stands : Stands code label position) (stands' : Stands code label position') :
    position = position' := by
  rcases Nat.lt_trichotomy position position' with less | same | less
  · exact absurd stands'.1 (stands.2 _ less)
  · exact same
  · exact absurd stands.1 (stands'.2 _ less)

theorem Stands.iff {code : List Instruction} {label : LabelId} {position : Nat}
    (stands : Stands code label position) (goal : Nat) : Stands code label goal ↔ goal = position :=
  ⟨fun stands' => stands'.unique stands, fun same => same ▸ stands⟩

theorem Marks.inside {code : List Instruction} {label : LabelId} {position : Nat}
    (marks : Marks code position label) : position < code.length := by
  obtain ⟨i, here, _⟩ := Option.bind_eq_some_iff.mp marks
  exact (List.getElem?_eq_some_iff.mp here).1

theorem Carries.unique [Libraries] {limit : Option UInt16} {i : Instruction} {before after after' : Nat}
    (carries : Carries limit i before after) (carries' : Carries limit i before after') :
    after = after' := by
  obtain ⟨pops, pushes, read, _, rfl, _⟩ := carries
  obtain ⟨pops', pushes', read', _, rfl, _⟩ := carries'
  have same := read.symm.trans read'
  simp only [Except.ok.injEq, Prod.mk.injEq] at same
  rw [same.1, same.2]

theorem stands_of_marks (code : List Instruction) (label : LabelId) (position : Nat)
    (marks : Marks code position label) : ∃ last, Stands code label last := by
  by_cases later : ∃ other, position < other ∧ Marks code other label
  · obtain ⟨other, less, marksLater⟩ := later
    exact stands_of_marks code label other marksLater
  · exact ⟨position, marks, fun other less marksLater => later ⟨other, less, marksLater⟩⟩
termination_by code.length - position
decreasing_by
  have := marksLater.inside
  omega

end Flow

end JvmEdit
