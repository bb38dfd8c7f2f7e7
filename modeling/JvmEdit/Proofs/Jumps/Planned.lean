import JvmEdit.Proofs.Data.Table
import JvmEdit.Proofs.Jumps.Settling
set_option autoImplicit false

namespace JvmEdit

namespace Jumps

section Enter

variable {κ α : Type} [DecidableEq κ] [LT κ] [DecidableLT κ]

-- Puts in the value of a key, if it has one.
def enter (value? : κ → Option α) (t : Table κ α) (key : κ) : Table κ α :=
  match value? key with
  | some value => t.insert key value
  | none => t

theorem get?_enter (value? : κ → Option α) (t : Table κ α) (key other : κ) :
    (enter value? t key).get? other =
      if key = other then (value? other).or (t.get? other) else t.get? other := by
  by_cases same : key = other
  · subst same
    rw [enter, if_pos rfl]
    cases value? key with
    | none => rfl
    | some value => exact t.get?_insert_self key value
  · rw [enter, if_neg same]
    cases value? key with
    | none => rfl
    | some value => rw [Table.get?_insert, if_neg same]

theorem get?_foldl_enter (value? : κ → Option α) (keys : List κ) (t : Table κ α) (key : κ) :
    (keys.foldl (enter value?) t).get? key =
      if key ∈ keys then (value? key).or (t.get? key) else t.get? key := by
  induction keys generalizing t with
  | nil => rfl
  | cons k keys ih =>
      rw [List.foldl_cons, ih, get?_enter]
      by_cases same : k = key
      · subst same
        rw [if_pos rfl, if_pos List.mem_cons_self]
        cases value? k <;> simp
      · simp only [if_neg same, List.mem_cons, Ne.symm same, false_or]

end Enter

theorem mem_keys_foldl_insert (labels : List LabelId) (t : Table LabelId Unit) (label : LabelId) :
    label ∈ (labels.foldl (fun t label => t.insert label ()) t).keys ↔ label ∈ t.keys ∨ label ∈ labels := by
  have same : (fun (t : Table LabelId Unit) label => t.insert label ()) = enter fun _ => some () := rfl
  rw [same, Table.mem_keys_iff, Table.mem_keys_iff, get?_foldl_enter]
  by_cases member : label ∈ labels <;> simp [member]

theorem mem_all_targets (code : Stream) (label : LabelId) :
    label ∈ allTargets code ↔ ∃ i ∈ code.toList, label ∈ i.targets := by
  have folded : ∀ (is : List Instruction) (t : Table LabelId Unit), label ∈ (is.foldl (fun found i =>
      i.targets.foldl (fun t label => t.insert label ()) found) t).keys ↔
        label ∈ t.keys ∨ ∃ i ∈ is, label ∈ i.targets := by
    intro is
    induction is with
    | nil => simp
    | cons i is ih =>
        intro t
        rw [List.foldl_cons, ih, mem_keys_foldl_insert, List.exists_mem_cons_iff, or_assoc]
  rw [allTargets, folded]
  constructor
  · intro known
    rcases known with before | named
    · cases before
    · exact named
  · exact .inr

theorem get?_ends_of (code : Stream) (label : LabelId) : (endsOf code).get? label =
    if label ∈ allTargets code ∧ chainEnd code label ≠ label then some (chainEnd code label) else none := by
  have same : endsOf code = (allTargets code).foldl (enter fun label =>
      if chainEnd code label = label then none else some (chainEnd code label)) .empty := by
    rw [endsOf]
    congr
    funext t label
    by_cases fixed : chainEnd code label = label <;> simp [enter, fixed]
  rw [same, get?_foldl_enter, Table.get?_empty, Option.or_none]
  by_cases member : label ∈ allTargets code
  · by_cases fixed : chainEnd code label = label <;> simp [member, fixed]
  · simp [member]

theorem get?_exits_of (code : Stream) (labels : List LabelId) (label : LabelId) :
    (exitsOf code labels).get? label = if label ∈ labels then
      (code.realAtLabel? label).bind fun i => if i.opcode.isReturn then some i.opcode else none
      else none := by
  have same : exitsOf code labels = labels.foldl (enter fun label =>
      (code.realAtLabel? label).bind fun i => if i.opcode.isReturn then some i.opcode else none) .empty := by
    rw [exitsOf]
    congr
    funext t label
    cases found : code.realAtLabel? label with
    | none => simp [enter, found]
    | some i => cases returns : i.opcode.isReturn <;> simp [enter, found, returns]
  rw [same, get?_foldl_enter, Table.get?_empty, Option.or_none]

section Plan

variable (code : Stream)

theorem finish_eq (label : LabelId) (named : ∃ i ∈ code.toList, label ∈ i.targets) :
    (plan code).finish label = chainEnd code label := by
  have member := (mem_all_targets code label).mpr named
  rw [Plan.finish, plan, get?_ends_of]
  by_cases fixed : chainEnd code label = label <;> simp [member, fixed]

theorem finish_of_not_contains (p : Plan) (label : LabelId) (absent : p.ends.contains label = false) :
    p.finish label = label := by
  rw [Table.contains, Option.isSome_eq_false_iff, Option.isNone_iff_eq_none] at absent
  rw [Plan.finish, absent, Option.getD_none]

theorem exit?_iff (i : Instruction) (member : i ∈ code.toList) (opcode : Opcode) :
    (plan code).exit? i = some opcode ↔ ∃ label r, goto? i = some label ∧
      code.realAtLabel? (chainEnd code label) = some r ∧ r.opcode.isReturn = true ∧ r.opcode = opcode := by
  rw [Plan.exit?, Option.bind_eq_some_iff]
  apply exists_congr
  intro label
  cases isGoto : goto? i with
  | none => simp
  | some target =>
      by_cases same : target = label
      · subst same
        have goes := ((goto?_iff i target).mp isGoto).2
        have named : ∃ i ∈ code.toList, target ∈ i.targets := by
          refine ⟨i, member, ?_⟩
          rw [Instruction.targets, goes]
          exact List.mem_singleton_self _
        have arrives : (plan code).finish target ∈
            (allTargets code).map fun label => ((endsOf code).get? label).getD label :=
          List.mem_map.mpr ⟨target, (mem_all_targets code target).mpr named, rfl⟩
        have exits : (plan code).exits = exitsOf code
            ((allTargets code).map fun label => ((endsOf code).get? label).getD label) := rfl
        rw [exits, get?_exits_of, if_pos arrives, finish_eq code target named]
        simp [Option.bind_eq_some_iff]
      · simp [same]

end Plan

-- The targets of an instruction replaced.
def retarget (f : LabelId → LabelId) (i : Instruction) : Instruction :=
  if i.isLabel then i else { i with operand := i.operand.mapLabels f }

theorem retarget_jump (f : LabelId → LabelId) {i : Instruction} {label : LabelId}
    (goes : i.operand = .jump label) : (retarget f i).operand = .jump (f label) := by
  rw [retarget, not_label_of_jump goes, goes]
  rfl

theorem retarget_switch (f : LabelId → LabelId) {i : Instruction} {otherwise : LabelId}
    {cases : List (Int32 × LabelId)} (goes : i.operand = .switch otherwise cases) :
    (retarget f i).operand = .switch (f otherwise) (cases.map fun c => (c.1, f c.2)) := by
  have real : i.isLabel = false := by
    rw [Instruction.isLabel, goes]
    rfl
  rw [retarget, real, goes]
  rfl

-- What an instruction becomes; `returned` is the identity of a return in its place.
def carriedOut (p : Plan) (returned : InsnId) (i : Instruction) : Instruction :=
  match p.exit? i with
  | some opcode => ⟨returned, opcode, .simple⟩
  | none => retarget p.finish i

theorem shortened_eq (p : Plan) (i : Instruction) :
    (if isShortened p i then { i with operand := i.operand.mapLabels p.finish } else i) =
      retarget p.finish i := by
  obtain ⟨_, opcode, operand⟩ := i
  cases operand with
  | label l => rfl
  | jump target =>
      simp only [isShortened, Instruction.targets, Operand.targets, List.any_cons, List.any_nil,
        Bool.or_false]
      split
      · rfl
      · rename_i absent
        rw [Bool.not_eq_true] at absent
        simp only [retarget, Instruction.isLabel, Operand.isLabel, Operand.label?, Operand.mapLabels,
          finish_of_not_contains p target absent]
        rfl
  | switch otherwise cases =>
      split
      · rfl
      · rename_i absent
        rw [Bool.not_eq_true, isShortened, List.any_eq_false] at absent
        have fixed : ∀ label ∈ otherwise :: cases.map Prod.snd, p.finish label = label := by
          intro label member
          exact finish_of_not_contains p label (Bool.eq_false_iff.mpr (absent label member))
        have unchanged : cases.map (fun c => (c.1, p.finish c.2)) = cases := by
          have each : ∀ c ∈ cases, (c.1, p.finish c.2) = id c := by
            intro c member
            rw [fixed c.2 (List.mem_cons_of_mem _ (List.mem_map_of_mem member)), id]
          rw [List.map_congr_left each, List.map_id]
        simp only [retarget, Instruction.isLabel, Operand.isLabel, Operand.label?, Operand.mapLabels,
          fixed otherwise List.mem_cons_self, unchanged]
        rfl
  | _ => rfl

theorem length_apply (p : Plan) (next : Nat) (code : List Instruction) :
    (apply p next code).length = code.length := by
  induction code generalizing next with
  | nil => rfl
  | cons i rest ih =>
      rw [apply]
      split <;> rw [List.length_cons, ih, List.length_cons]

theorem get_elem?_apply (p : Plan) (next : Nat) (code : List Instruction) (position : Nat)
    (i : Instruction) (here : code[position]? = some i) :
    ∃ n, next ≤ n ∧ (apply p next code)[position]? = some (carriedOut p ⟨n⟩ i) := by
  induction code generalizing next position with
  | nil => cases here
  | cons first rest ih =>
      have stepped : ∃ next', next ≤ next' ∧
          apply p next (first :: rest) = carriedOut p ⟨next⟩ first :: apply p next' rest := by
        rw [apply, carriedOut]
        cases p.exit? first with
        | some opcode => exact ⟨next + 1, Nat.le_succ next, rfl⟩
        | none =>
            dsimp only
            rw [shortened_eq]
            exact ⟨next, Nat.le_refl next, rfl⟩
      obtain ⟨next', later, same⟩ := stepped
      rw [same]
      cases position with
      | zero =>
          cases here
          exact ⟨next, Nat.le_refl next, rfl⟩
      | succ position =>
          obtain ⟨n, from', found⟩ := ih next' position here
          exact ⟨n, Nat.le_trans later from', found⟩

theorem apply_unplanned (code : Stream) (next : Nat) (idle : isPlanned (plan code) code = false) :
    apply (plan code) next code.toList = code.toList := by
  rw [isPlanned, Bool.or_eq_false_iff, decide_eq_false_iff_not, not_not, List.any_eq_false] at idle
  obtain ⟨none, stays⟩ := idle
  have fixed : ∀ label, (plan code).ends.contains label = false := by
    intro label
    rw [Table.contains, Table.get?, List.length_eq_zero_iff.mp none]
    rfl
  have each : ∀ is, (∀ i ∈ is, (plan code).exit? i = .none) → apply (plan code) next is = is := by
    intro is
    induction is with
    | nil => exact fun _ => rfl
    | cons i is ih =>
        intro all
        rw [apply, all i List.mem_cons_self]
        dsimp only
        rw [ih fun j member => all j (List.mem_cons_of_mem _ member), if_neg]
        rw [isShortened, List.any_eq_true]
        intro ⟨label, _, known⟩
        rw [fixed label] at known
        cases known
  apply each
  intro i member
  exact Option.not_isSome_iff_eq_none.mp (stays i member)

end Jumps

end JvmEdit
