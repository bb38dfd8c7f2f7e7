import JvmEdit.Proofs.ClassFile.Extent
import JvmEdit.Proofs.ClassFile.Labels
set_option autoImplicit false

namespace JvmEdit

namespace Code

open Reader

section Parts

variable {α β : Type}

-- The reader is local, and what it reads has the property.
def LocalTo (holds : α → Prop) (reader : Reader α) : Prop :=
  Splits reader id fun taken a => Reads reader taken a ∧ holds a

namespace LocalTo

variable {holds : α → Prop}

theorem pure (value : α) (held : holds value) : LocalTo holds (Pure.pure value) := by
  intro c a c' ran
  obtain ⟨taken, reads, isRest⟩ := Local.pure value c a c' ran
  cases ran
  exact ⟨taken, ⟨reads, held⟩, isRest⟩

theorem fail (error : DecodeError) : LocalTo holds (Reader.fail error) := by
  intro c a c' ran
  cases ran

theorem bind {x : Reader β} {f : β → Reader α} (head : Local x) (tail : ∀ b, LocalTo holds (f b)) :
    LocalTo holds (x >>= f) := by
  intro c a c'' ran
  obtain ⟨b, c', first, second⟩ := state_t_bind x f c c'' a ran
  obtain ⟨taken, reads, isRest⟩ := head c b c' first
  obtain ⟨more, ⟨later, held⟩, isLater⟩ := tail b c' a c'' second
  refine ⟨taken ++ more, ⟨reads.bind later, held⟩, ?_⟩
  rw [isRest, isLater]
  exact (List.append_assoc ..).symm

theorem ite (c : Prop) [Decidable c] {x y : Reader α} (first : LocalTo holds x) (second : LocalTo holds y) :
    LocalTo holds (if c then x else y) := by
  split
  · exact first
  · exact second

theorem after {earlier : β → Prop} {x : Reader β} {f : β → Reader α} (head : LocalTo earlier x)
    (tail : ∀ b, earlier b → LocalTo holds (f b)) : LocalTo holds (x >>= f) := by
  intro c a c'' ran
  obtain ⟨b, c', first, second⟩ := state_t_bind x f c c'' a ran
  obtain ⟨taken, ⟨reads, held⟩, isRest⟩ := head c b c' first
  obtain ⟨more, ⟨later, held'⟩, isLater⟩ := tail b held c' a c'' second
  refine ⟨taken ++ more, ⟨reads.bind later, held'⟩, ?_⟩
  rw [isRest, isLater]
  exact (List.append_assoc ..).symm

end LocalTo

theorem local_skip (count : Nat) : Local (skip count) := (local_bytes count).bind fun _ => .pure ()

theorem local_i8 : Local i8 := local_u8.map _

theorem local_i16 : Local i16 := local_u16.map _

theorem local_i32 : Local i32 := local_u32.map _

theorem local_times_onto (reader : Reader α) (inner : Local reader) (count : Nat) (reversed : List α) :
    Local (timesOnto reader reversed count) := by
  induction count generalizing reversed with
  | zero => exact .pure _
  | succ count ih => exact inner.bind fun value => ih (value :: reversed)

theorem local_times (count : Nat) (reader : Reader α) (inner : Local reader) : Local (times count reader) :=
  local_times_onto reader inner count []

end Parts

section Instructions

variable (pool : Pool) (offset : Nat)

theorem local_read_branch : Local (readBranch offset) := local_i32.bind fun _ => .lift _

theorem local_read_table_switch : LocalTo RawOperand.Bare (readTableSwitch offset) :=
  .bind (local_skip _) fun _ => .bind (local_read_branch offset) fun _ => .bind local_i32 fun _ =>
    .bind local_i32 fun _ => .ite _ (.fail _)
      (.bind (local_times _ _ (local_read_branch offset)) fun _ => .pure _ trivial)

theorem local_read_lookup_switch : LocalTo RawOperand.Bare (readLookupSwitch offset) :=
  .bind (local_skip _) fun _ => .bind (local_read_branch offset) fun _ => .bind local_i32 fun _ =>
    .bind (local_times _ _ (local_i32.bind fun _ => (local_read_branch offset).bind fun _ => .pure _))
      fun _ => .pure _ trivial

theorem local_read_wide : LocalTo (fun read => read.2.Bare) (readWide offset) :=
  .bind local_u8 fun _ => .bind local_u16 fun _ =>
    .ite _ (.bind local_i16 fun _ => .pure _ ⟨rfl, rfl⟩) (.ite _ (.pure _ ⟨rfl, rfl⟩) (.fail _))

theorem local_read_operand (op : Opcode) :
    LocalTo (fun operand => (RawOperand.ready operand).Bare) (readOperand pool op) := by
  have index : ∀ {α : Type} (find : UInt16 → Except DecodeError α) (make : α → Reader Operand),
      (∀ a, LocalTo (fun operand => (RawOperand.ready operand).Bare) (make a)) →
      LocalTo (fun operand => (RawOperand.ready operand).Bare) (do
        let index ← u16
        let found ← find index
        make found) := fun find make made => .bind local_u16 fun _ => .bind (Local.lift _) made
  unfold readOperand
  -- one arm for each kind of operand, in the order of their codes
  refine .ite _ (.pure _ ⟨rfl, rfl⟩) <| .ite _ (.bind local_i8 fun _ => .pure _ ⟨rfl, rfl⟩) <|
    .ite _ (.bind local_i16 fun _ => .pure _ ⟨rfl, rfl⟩) <|
    .ite _ (.bind local_u8 fun _ => .bind (Local.lift _) fun _ => .pure _ ⟨rfl, rfl⟩) <|
    .ite _ (index _ _ fun _ => .pure _ ⟨rfl, rfl⟩) <|
    .ite _ (.bind local_u8 fun _ => .pure _ ⟨rfl, rfl⟩) <|
    .ite _ (.bind local_u8 fun _ => .bind local_i8 fun _ => .pure _ ⟨rfl, rfl⟩) <|
    .ite _ (.pure _ ⟨rfl, rfl⟩) <| .ite _ (.pure _ ⟨rfl, rfl⟩) <|
    .ite _ (index _ _ fun _ => .pure _ ⟨rfl, rfl⟩) <| .ite _ (index _ _ fun _ => ?_) <|
    .ite _ (index _ _ fun _ => .bind (local_skip 2) fun _ => .pure _ ⟨rfl, rfl⟩) <|
    .ite _ (index _ _ fun _ => .pure _ ⟨rfl, rfl⟩) <|
    .ite _ (.bind local_u8 fun _ => .pure _ ⟨rfl, rfl⟩) <|
    .ite _ (index _ _ fun _ => .bind local_u8 fun _ => .pure _ ⟨rfl, rfl⟩) (.pure _ ⟨rfl, rfl⟩)
  exact .ite _ (.bind (local_skip 2) fun _ => .pure _ ⟨rfl, rfl⟩) (.pure _ ⟨rfl, rfl⟩)

theorem local_read_tail (op : Opcode) :
    LocalTo (fun i => i.offset = offset ∧ i.operand.Bare) (readTail pool offset op) := by
  refine .ite _ (.bind local_i16 fun _ => .bind (Local.lift _) fun _ => .pure _ ⟨rfl, trivial⟩) <|
    .ite _ (.bind (local_read_branch offset) fun _ => .pure _ ⟨rfl, trivial⟩) <|
    .ite _ (.after (local_read_table_switch offset) fun _ bare => .pure _ ⟨rfl, bare⟩) <|
    .ite _ (.after (local_read_lookup_switch offset) fun _ bare => .pure _ ⟨rfl, bare⟩) <|
    .ite _ (.after (local_read_wide offset) fun _ bare => .pure _ ⟨rfl, bare⟩) <|
    .ite _ (.after (local_read_operand pool op) fun _ bare => .pure _ ⟨rfl, bare⟩) (.fail _)

-- What an instruction that is read says of the place behind it.
structure Steps (c c' : Cursor) (i : RawInstruction) : Prop where
  offset : i.offset = c.offset
  bare : i.operand.Bare
  later : c.offset < c'.offset
  total : c'.offset + c'.rest.length = c.offset + c.rest.length

theorem steps_read_instruction (c c' : Cursor) (i : RawInstruction)
    (read : readInstruction pool c = .ok (i, c')) : Steps c c' i := by
  obtain ⟨rest, offset⟩ := c
  cases rest with
  | nil => cases read
  | cons op rest =>
      obtain ⟨taken, ⟨reads, isOffset, bare⟩, isRest⟩ :=
        local_read_tail pool offset op ⟨rest, offset + 1⟩ i c' read
      have again := reads c'.rest (offset + 1)
      dsimp only [id] at isRest again
      rw [← isRest] at again
      have isEnd := congrArg Prod.snd (Except.ok.inj (again.symm.trans read))
      have isOffset' := congrArg Cursor.offset isEnd
      dsimp only at isOffset'
      refine ⟨isOffset, bare, ?_, ?_⟩
      · dsimp only
        omega
      · dsimp only
        rw [isRest, List.length_cons, List.length_append]
        omega

theorem Scans.total {c c' : Cursor} {is : List RawInstruction} (scans : Scans pool c is c') :
    c'.offset + c'.rest.length = c.offset + c.rest.length := by
  induction scans with
  | nil => rfl
  | cons c c' _ i is read _ _ ih => rw [ih, (steps_read_instruction pool c c' i read).total]

theorem Scans.bare {c c' : Cursor} {is : List RawInstruction} (scans : Scans pool c is c') :
    ∀ i ∈ is, i.operand.Bare := by
  induction scans with
  | nil => exact List.forall_mem_nil _
  | cons c c' _ i is read _ _ ih =>
      exact List.forall_mem_cons.mpr ⟨(steps_read_instruction pool c c' i read).bare, ih⟩

theorem Scans.rising {c c' : Cursor} {is : List RawInstruction} (scans : Scans pool c is c') :
    (starts is c'.offset).Pairwise (· < ·) ∧ ∀ o ∈ starts is c'.offset, c.offset ≤ o := by
  induction scans with
  | nil => exact ⟨List.pairwise_singleton _ _, fun o member => Nat.le_of_eq (List.mem_singleton.mp member).symm⟩
  | cons c c' c'' i is read _ _ ih =>
      obtain ⟨sorted, above⟩ := ih
      have step := steps_read_instruction pool c c' i read
      rw [starts_cons, step.offset]
      have later : ∀ o ∈ starts is c''.offset, c.offset < o := fun o member =>
        Nat.lt_of_lt_of_le step.later (above o member)
      exact ⟨List.pairwise_cons.mpr ⟨later, sorted⟩,
        List.forall_mem_cons.mpr ⟨Nat.le_refl _, fun o member => Nat.le_of_lt (later o member)⟩⟩

theorem scans_of_read_onto (fuel : Nat) (reversed all : List RawInstruction) (c last : Cursor)
    (enough : c.rest.length ≤ fuel) (read : readOnto pool fuel reversed c = .ok (all, last)) :
    ∃ is, all = reversed.reverse ++ is ∧ last.rest = [] ∧ Scans pool c is last := by
  induction fuel generalizing reversed c with
  | zero =>
      cases read
      exact ⟨[], (List.append_nil _).symm, List.length_eq_zero_iff.mp (Nat.le_zero.mp enough), .nil _⟩
  | succ fuel ih =>
      obtain ⟨atEnd, c₁, isEnd, later⟩ := state_t_bind _ _ c last all read
      cases isEnd
      cases empty : c.rest.isEmpty with
      | true =>
          rw [empty] at later
          cases later
          exact ⟨[], (List.append_nil _).symm, List.isEmpty_iff.mp empty, .nil _⟩
      | false =>
          rw [empty, if_neg Bool.false_ne_true] at later
          obtain ⟨i, c₂, isRead, more⟩ := state_t_bind _ _ c last all later
          have step := steps_read_instruction pool c c₂ i isRead
          have shorter : c₂.rest.length < c.rest.length := by
            have total := step.total
            have after := step.later
            omega
          obtain ⟨is, isAll, done, scans⟩ := ih (i :: reversed) c₂ (by omega) more
          refine ⟨i :: is, ?_, done, .cons c c₂ last i is isRead shorter scans⟩
          rw [isAll, List.reverse_cons, List.append_assoc]
          rfl

theorem scans_of_read (bytes : List UInt8) (is : List RawInstruction)
    (read : readInstructions pool bytes = .ok is) : Scans pool ⟨bytes, 0⟩ is ⟨[], bytes.length⟩ := by
  obtain ⟨⟨all, last⟩, ran, rfl⟩ := except_map _ _ _ read
  obtain ⟨is, rfl, done, scans⟩ := scans_of_read_onto pool _ [] all ⟨bytes, 0⟩ last (Nat.le_refl _) ran
  have total := scans.total
  obtain ⟨rest, offset⟩ := last
  dsimp only at done total
  subst done
  rw [List.length_nil, Nat.add_zero, Nat.zero_add] at total
  subst total
  exact scans

end Instructions

end Code

namespace Code

open Reader

inductive FreeOperand
  | ready (operand : Operand)
  | jump (target : Int)
  | switch (otherwise : Int) (cases : List (Int32 × Int))

namespace FreeOperand

def targets : FreeOperand → List Int
  | ready _ => []
  | jump target => [target]
  | switch otherwise cases => otherwise :: cases.map Prod.snd

def checked : FreeOperand → RawOperand
  | ready operand => .ready operand
  | jump target => .jump target.toNat
  | switch otherwise cases => .switch otherwise.toNat (cases.map fun c => (c.1, c.2.toNat))

end FreeOperand

def RawOperand.free : RawOperand → FreeOperand
  | .ready operand => .ready operand
  | .jump target => .jump target
  | .switch otherwise cases => .switch otherwise (cases.map fun c => (c.1, (c.2 : Int)))

theorem targets_free (operand : RawOperand) : operand.free.targets = operand.targets.map Int.ofNat := by
  cases operand <;> simp [RawOperand.free, FreeOperand.targets, RawOperand.targets, Function.comp_def]

theorem checked_free (operand : RawOperand) : operand.free.checked = operand := by
  cases operand <;> simp [RawOperand.free, FreeOperand.checked, Function.comp_def]

structure FreeInstruction where
  offset : Nat
  opcode : Opcode
  operand : FreeOperand

-- The aims of an operand of the instruction at the offset.
def operandAims (offset : Nat) (operand : FreeOperand) : List (Nat × Int) :=
  operand.targets.map fun target => (offset, target)

namespace FreeInstruction

-- The targets, each with the offset that is to blame for it.
def aims (i : FreeInstruction) : List (Nat × Int) := operandAims i.offset i.operand

def checked (i : FreeInstruction) : RawInstruction := ⟨i.offset, i.opcode, i.operand.checked⟩

end FreeInstruction

def RawInstruction.free (i : RawInstruction) : FreeInstruction := ⟨i.offset, i.opcode, i.operand.free⟩

def freeBranch (offset : Nat) : Reader Int := do
  let distance ← Reader.i32
  return offset + distance.toInt

def freeTableSwitch (offset : Nat) : Reader FreeOperand := do
  Reader.skip (padding offset)
  let otherwise ← freeBranch offset
  let low ← Reader.i32
  let high ← Reader.i32
  if high < low then Reader.fail (.classFile (.emptyTable offset low high))
  else
    let count := (high.toInt - low.toInt + 1).toNat
    let targets ← Reader.times count (freeBranch offset)
    return .switch otherwise (targets.mapIdx fun i target => (low + Int32.ofNat i, target))

def freeCase (offset : Nat) : Reader (Int32 × Int) := do
  let key ← Reader.i32
  let target ← freeBranch offset
  return (key, target)

def freeLookupSwitch (offset : Nat) : Reader FreeOperand := do
  Reader.skip (padding offset)
  let otherwise ← freeBranch offset
  let count ← Reader.i32
  let cases ← Reader.times count.toInt.toNat (freeCase offset)
  return .switch otherwise cases

def freeTail (pool : Pool) (offset : Nat) (op : Opcode) : Reader FreeInstruction := do
  if isShortBranch op then
    let distance ← Reader.i16
    let target ← (pure (offset + distance.toInt) : Reader Int)
    return ⟨offset, op, .jump target⟩
  else if op = Opcode.gotoW || op = Opcode.jsrW then
    let target ← freeBranch offset
    return ⟨offset, op, .jump target⟩
  else if op = Opcode.tableSwitch then
    let operand ← freeTableSwitch offset
    return ⟨offset, op, operand⟩
  else if op = Opcode.lookupSwitch then
    let operand ← freeLookupSwitch offset
    return ⟨offset, op, operand⟩
  else
    -- no other instruction has targets
    RawInstruction.free <$> readTail pool offset op

def freeInstruction (pool : Pool) : Reader FreeInstruction := do
  let offset ← Reader.offset
  let op : Opcode ← Reader.u8
  freeTail pool offset op

def freeOnto (pool : Pool) : Nat → List FreeInstruction → Reader (List FreeInstruction)
  | 0, reversed => pure reversed.reverse
  | fuel + 1, reversed => do
      if ← Reader.isAtEnd then return reversed.reverse
      let i ← freeInstruction pool
      freeOnto pool fuel (i :: reversed)

def freeInstructions (pool : Pool) (bytes : List UInt8) : Except DecodeError (List FreeInstruction) :=
  Prod.fst <$> (freeOnto pool bytes.length []).runOn bytes

section Guards

variable {α β γ δ : Type}

-- The strict reader reads what the free one does, unless one of the aims lies before the code, which
-- is then the error.
structure Guards (aims : β → List (Nat × Int)) (checked : β → α) (strict : Reader α) (free : Reader β) :
    Prop where
  passes : ∀ c b c', free c = .ok (b, c') → (∀ aim ∈ aims b, 0 ≤ aim.2) → strict c = .ok (checked b, c')
  blames : ∀ c b c', free c = .ok (b, c') → (∃ aim ∈ aims b, aim.2 < 0) →
    ∃ aim ∈ aims b, aim.2 < 0 ∧ strict c = .error (.badTarget aim.1 aim.2)
  admits : ∀ c a c', strict c = .ok (a, c') →
    ∃ b, free c = .ok (b, c') ∧ (∀ aim ∈ aims b, 0 ≤ aim.2) ∧ checked b = a

namespace Guards

variable {aims : β → List (Nat × Int)} {checked : β → α}

theorem pure (b : β) (fine : ∀ aim ∈ aims b, 0 ≤ aim.2) :
    Guards aims checked (Pure.pure (checked b)) (Pure.pure b) where
  passes := by
    rintro c _ c' ⟨⟩ _
    rfl
  blames := by
    rintro c _ c' ⟨⟩ ⟨aim, member, negative⟩
    exact absurd (fine aim member) (Int.not_le.mpr negative)
  admits := by
    rintro c _ c' ⟨⟩
    exact ⟨b, rfl, fine, rfl⟩

theorem fail (error : DecodeError) : Guards aims checked (Reader.fail error) (Reader.fail error) := by
  constructor <;> intro c b c' ran <;> cases ran

theorem ite (p : Prop) [Decidable p] {x x' : Reader α} {y y' : Reader β} (first : Guards aims checked x y)
    (second : Guards aims checked x' y') : Guards aims checked (if p then x else x') (if p then y else y') := by
  split
  · exact first
  · exact second

theorem plain {x : Reader γ} {f : γ → Reader α} {g : γ → Reader β} (each : ∀ c, Guards aims checked (f c) (g c)) :
    Guards aims checked (x >>= f) (x >>= g) where
  passes := by
    intro c b c' ran fine
    obtain ⟨v, c₁, first, later⟩ := state_t_bind x g c c' b ran
    exact (state_t_bind_ok x f c c₁ v first).trans ((each v).passes c₁ b c' later fine)
  blames := by
    intro c b c' ran bad
    obtain ⟨v, c₁, first, later⟩ := state_t_bind x g c c' b ran
    obtain ⟨aim, member, negative, error⟩ := (each v).blames c₁ b c' later bad
    exact ⟨aim, member, negative, (state_t_bind_ok x f c c₁ v first).trans error⟩
  admits := by
    intro c a c' ran
    obtain ⟨v, c₁, first, later⟩ := state_t_bind x f c c' a ran
    obtain ⟨b, done, fine, same⟩ := (each v).admits c₁ a c' later
    exact ⟨b, (state_t_bind_ok x g c c₁ v first).trans done, fine, same⟩

theorem bind {aims' : δ → List (Nat × Int)} {checked' : δ → γ} {x : Reader γ} {y : Reader δ}
    {f : γ → Reader α} {g : δ → Reader β} (head : Guards aims' checked' x y)
    (tail : ∀ d, (∀ aim ∈ aims' d, 0 ≤ aim.2) → Guards aims checked (f (checked' d)) (g d))
    (stays : ∀ d c b c', g d c = .ok (b, c') → ∀ aim ∈ aims' d, aim ∈ aims b) :
    Guards aims checked (x >>= f) (y >>= g) where
  passes := by
    intro c b c' ran fine
    obtain ⟨d, c₁, first, later⟩ := state_t_bind y g c c' b ran
    have fineHead : ∀ aim ∈ aims' d, 0 ≤ aim.2 := fun aim member =>
      fine aim (stays d c₁ b c' later aim member)
    exact (state_t_bind_ok x f c c₁ _ (head.passes c d c₁ first fineHead)).trans
      ((tail d fineHead).passes c₁ b c' later fine)
  blames := by
    intro c b c' ran bad
    obtain ⟨d, c₁, first, later⟩ := state_t_bind y g c c' b ran
    by_cases badHead : ∃ aim ∈ aims' d, aim.2 < 0
    · obtain ⟨aim, member, negative, error⟩ := head.blames c d c₁ first badHead
      refine ⟨aim, stays d c₁ b c' later aim member, negative, ?_⟩
      simp only [Bind.bind, StateT.bind, error, Except.bind]
    · have fineHead : ∀ aim ∈ aims' d, 0 ≤ aim.2 := fun aim member =>
        Int.not_lt.mp fun negative => badHead ⟨aim, member, negative⟩
      obtain ⟨aim, member, negative, error⟩ := (tail d fineHead).blames c₁ b c' later bad
      exact ⟨aim, member, negative,
        (state_t_bind_ok x f c c₁ _ (head.passes c d c₁ first fineHead)).trans error⟩
  admits := by
    intro c a c' ran
    obtain ⟨v, c₁, first, later⟩ := state_t_bind x f c c' a ran
    obtain ⟨d, firstFree, fineHead, rfl⟩ := head.admits c v c₁ first
    obtain ⟨b, done, fine, same⟩ := (tail d fineHead).admits c₁ a c' later
    exact ⟨b, (state_t_bind_ok y g c c₁ d firstFree).trans done, fine, same⟩

end Guards

theorem guards_target (offset : Nat) (distance : Int) :
    Guards (fun target => [(offset, target)]) Int.toNat (liftM (branchTarget offset distance))
      (Pure.pure (offset + distance)) := by
  rw [branchTarget]
  by_cases fine : 0 ≤ (offset : Int) + distance
  · rw [if_pos fine]
    exact .pure _ fun aim member => by
      cases List.mem_singleton.mp member
      exact fine
  · rw [if_neg fine]
    constructor
    · rintro c _ c' ⟨⟩ all
      exact absurd (all _ (List.mem_singleton_self _)) fine
    · rintro c _ c' ⟨⟩ _
      exact ⟨_, List.mem_singleton_self _, Int.not_le.mp fine, rfl⟩
    · intro c a c' ran
      cases ran

theorem guards_branch (offset : Nat) :
    Guards (fun target => [(offset, target)]) Int.toNat (readBranch offset) (freeBranch offset) :=
  .plain fun distance => guards_target offset distance.toInt

theorem mem_times_onto (reader : Reader α) (reversed values : List α) (count : Nat) (c c' : Cursor)
    (ran : timesOnto reader reversed count c = .ok (values, c')) : ∀ value ∈ reversed, value ∈ values := by
  induction count generalizing reversed c with
  | zero =>
      cases ran
      exact fun value => List.mem_reverse.mpr
  | succ count ih =>
      obtain ⟨next, c₁, _, later⟩ := state_t_bind _ _ c c' values ran
      exact fun value member => ih (next :: reversed) c₁ later value (List.mem_cons_of_mem _ member)

theorem guards_times_onto {aims : β → List (Nat × Int)} {checked : β → α} {strict : Reader α}
    {free : Reader β} (inner : Guards aims checked strict free) (count : Nat) (reversed : List β)
    (fine : ∀ b ∈ reversed, ∀ aim ∈ aims b, 0 ≤ aim.2) :
    Guards (fun bs => bs.flatMap aims) (List.map checked) (timesOnto strict (reversed.map checked) count)
      (timesOnto free reversed count) := by
  induction count generalizing reversed with
  | zero =>
      simp only [timesOnto, ← List.map_reverse]
      refine .pure reversed.reverse fun aim member => ?_
      obtain ⟨b, inside, isAim⟩ := List.mem_flatMap.mp member
      exact fine b (List.mem_reverse.mp inside) aim isAim
  | succ count ih =>
      refine inner.bind (fun b fineHere => ih (b :: reversed) (List.forall_mem_cons.mpr ⟨fineHere, fine⟩)) ?_
      intro b c bs c' ran aim isAim
      exact List.mem_flatMap.mpr ⟨b, mem_times_onto _ _ _ _ _ _ ran b List.mem_cons_self, isAim⟩

theorem guards_times {aims : β → List (Nat × Int)} {checked : β → α} {strict : Reader α}
    {free : Reader β} (inner : Guards aims checked strict free) (count : Nat) :
    Guards (fun bs => bs.flatMap aims) (List.map checked) (times count strict) (times count free) :=
  guards_times_onto inner count [] (List.forall_mem_nil _)

theorem snd_map_idx {γ τ : Type} (key : Nat → γ) (targets : List τ) :
    (targets.mapIdx fun i target => (key i, target)).map Prod.snd = targets := by
  refine List.ext_getElem (by simp) fun i _ _ => ?_
  simp

theorem guards_table_switch (offset : Nat) :
    Guards (operandAims offset) FreeOperand.checked (readTableSwitch offset) (freeTableSwitch offset) := by
  refine .plain fun _ => .bind (guards_branch offset) (fun otherwise fine => ?_) ?_
  · refine .plain fun low => .plain fun high => .ite _ (.fail _) ?_
    refine .bind (guards_times (guards_branch offset) _) (fun targets fineTargets => ?_) ?_
    · have same : FreeOperand.checked (.switch otherwise (targets.mapIdx fun i target => (low + Int32.ofNat i, target)))
          = .switch otherwise.toNat ((targets.map Int.toNat).mapIdx fun i target => (low + Int32.ofNat i, target)) := by
        rw [FreeOperand.checked]
        congr 1
        exact List.ext_getElem (by simp) fun i _ _ => by simp
      rw [← same]
      refine .pure _ fun aim member => ?_
      rw [operandAims, FreeOperand.targets, snd_map_idx, List.map_cons] at member
      rcases List.mem_cons.mp member with rfl | inside
      · exact fine _ (List.mem_singleton_self _)
      · rw [List.map_eq_flatMap] at inside
        exact fineTargets aim inside
    · rintro targets c _ c' ⟨⟩ aim member
      rw [← List.map_eq_flatMap] at member
      rw [operandAims, FreeOperand.targets, snd_map_idx, List.map_cons]
      exact List.mem_cons_of_mem _ member
  · intro otherwise c operand c' ran aim member
    cases List.mem_singleton.mp member
    obtain ⟨low, c₁, _, ran⟩ := state_t_bind _ _ c c' operand ran
    obtain ⟨high, c₂, _, ran⟩ := state_t_bind _ _ c₁ c' operand ran
    by_cases none : high < low
    · rw [if_pos none] at ran
      cases ran
    · rw [if_neg none] at ran
      obtain ⟨targets, c₃, _, last⟩ := state_t_bind _ _ c₂ c' operand ran
      cases last
      exact List.mem_cons_self

theorem guards_case (offset : Nat) :
    Guards (fun c : Int32 × Int => [(offset, c.2)]) (fun c => (c.1, c.2.toNat)) (do
      let key ← Reader.i32
      let target ← readBranch offset
      return (key, target)) (freeCase offset) := by
  refine .plain fun key => .bind (guards_branch offset) (fun target fine => ?_) ?_
  · exact .pure (key, target) fine
  · rintro target c _ c' ⟨⟩ aim member
    exact member

theorem guards_lookup_switch (offset : Nat) :
    Guards (operandAims offset) FreeOperand.checked (readLookupSwitch offset) (freeLookupSwitch offset) := by
  refine .plain fun _ => .bind (guards_branch offset) (fun otherwise fine => ?_) ?_
  · refine .plain fun count => .bind (guards_times (guards_case offset) _) (fun cases fineCases => ?_) ?_
    · refine .pure (FreeOperand.switch otherwise cases) fun aim member => ?_
      rw [operandAims, FreeOperand.targets, List.map_cons, List.map_map] at member
      rcases List.mem_cons.mp member with rfl | inside
      · exact fine _ (List.mem_singleton_self _)
      · rw [List.map_eq_flatMap] at inside
        exact fineCases aim inside
    · rintro cases c _ c' ⟨⟩ aim member
      rw [operandAims, FreeOperand.targets, List.map_cons, List.map_map, List.map_eq_flatMap]
      exact List.mem_cons_of_mem _ member
  · intro otherwise c operand c' ran aim member
    cases List.mem_singleton.mp member
    obtain ⟨count, c₁, _, ran⟩ := state_t_bind _ _ c c' operand ran
    obtain ⟨cases, c₂, _, last⟩ := state_t_bind _ _ c₁ c' operand ran
    cases last
    exact List.mem_cons_self

theorem guards_jump (offset : Nat) (op : Opcode) {strict : Reader Nat} {free : Reader Int}
    (branch : Guards (fun target => [(offset, target)]) Int.toNat strict free) :
    Guards FreeInstruction.aims FreeInstruction.checked
      (strict >>= fun target => pure ⟨offset, op, .jump target⟩)
      (free >>= fun target => pure ⟨offset, op, .jump target⟩) := by
  refine .bind branch (fun target fine => .pure (FreeInstruction.mk offset op (.jump target)) fine) ?_
  rintro target c _ c' ⟨⟩ aim member
  exact member

theorem guards_switch (offset : Nat) (op : Opcode) {strict : Reader RawOperand} {free : Reader FreeOperand}
    (operand : Guards (operandAims offset) FreeOperand.checked strict free) :
    Guards FreeInstruction.aims FreeInstruction.checked
      (strict >>= fun operand => pure ⟨offset, op, operand⟩)
      (free >>= fun operand => pure ⟨offset, op, operand⟩) := by
  refine .bind operand (fun operand fine => .pure (FreeInstruction.mk offset op operand) fine) ?_
  rintro operand c _ c' ⟨⟩ aim member
  exact member

theorem guards_tail (pool : Pool) (offset : Nat) (op : Opcode) :
    Guards FreeInstruction.aims FreeInstruction.checked (readTail pool offset op) (freeTail pool offset op) := by
  have others : Guards FreeInstruction.aims FreeInstruction.checked (readTail pool offset op)
      (RawInstruction.free <$> readTail pool offset op) := by
    have each : ∀ i : RawInstruction, Guards FreeInstruction.aims FreeInstruction.checked (pure i) (pure i.free) := by
      intro i
      have same : i.free.checked = i := by rw [RawInstruction.free, FreeInstruction.checked, checked_free]
      have fine : ∀ aim ∈ i.free.aims, 0 ≤ aim.2 := by
        intro aim member
        rw [FreeInstruction.aims, RawInstruction.free, operandAims, targets_free] at member
        obtain ⟨_, inside, rfl⟩ := List.mem_map.mp member
        obtain ⟨target, _, rfl⟩ := List.mem_map.mp inside
        exact Int.natCast_nonneg target
      have whole : Guards FreeInstruction.aims FreeInstruction.checked (pure i.free.checked) (pure i.free) :=
        .pure i.free fine
      rwa [same] at whole
    have whole : Guards FreeInstruction.aims FreeInstruction.checked (readTail pool offset op >>= pure)
      (readTail pool offset op >>= fun i => pure i.free) := .plain each
    rwa [bind_pure] at whole
  unfold freeTail
  by_cases short : isShortBranch op = true
  · rw [if_pos short, readTail, if_pos short]
    exact .plain fun distance => guards_jump offset op (guards_target offset distance.toInt)
  rw [if_neg short]
  by_cases far : (op = Opcode.gotoW || op = Opcode.jsrW) = true
  · rw [if_pos far, readTail, if_neg short, if_pos far]
    exact guards_jump offset op (guards_branch offset)
  rw [if_neg far]
  by_cases isTable : op = Opcode.tableSwitch
  · rw [if_pos isTable, readTail, if_neg short, if_neg far, if_pos isTable]
    exact guards_switch offset op (guards_table_switch offset)
  rw [if_neg isTable]
  by_cases isLookup : op = Opcode.lookupSwitch
  · rw [if_pos isLookup, readTail, if_neg short, if_neg far, if_neg isTable, if_pos isLookup]
    exact guards_switch offset op (guards_lookup_switch offset)
  rw [if_neg isLookup]
  exact others

theorem guards_instruction (pool : Pool) :
    Guards FreeInstruction.aims FreeInstruction.checked (readInstruction pool) (freeInstruction pool) :=
  .plain fun offset => .plain fun op => guards_tail pool offset op

theorem mem_free_onto (pool : Pool) (fuel : Nat) (reversed is : List FreeInstruction) (c c' : Cursor)
    (ran : freeOnto pool fuel reversed c = .ok (is, c')) : ∀ i ∈ reversed, i ∈ is := by
  induction fuel generalizing reversed c with
  | zero =>
      cases ran
      exact fun i => List.mem_reverse.mpr
  | succ fuel ih =>
      obtain ⟨atEnd, c₁, _, ran⟩ := state_t_bind _ _ c c' is ran
      cases atEnd with
      | true =>
          cases ran
          exact fun i => List.mem_reverse.mpr
      | false =>
          obtain ⟨next, c₂, _, later⟩ := state_t_bind _ _ c₁ c' is ran
          exact fun i member => ih (next :: reversed) c₂ later i (List.mem_cons_of_mem _ member)

-- The aims of a whole listing.
def listAims (is : List FreeInstruction) : List (Nat × Int) := is.flatMap FreeInstruction.aims

theorem guards_onto (pool : Pool) (fuel : Nat) (reversed : List FreeInstruction)
    (fine : ∀ i ∈ reversed, ∀ aim ∈ i.aims, 0 ≤ aim.2) :
    Guards listAims (List.map FreeInstruction.checked)
      (readOnto pool fuel (reversed.map FreeInstruction.checked)) (freeOnto pool fuel reversed) := by
  have stop : ∀ reversed : List FreeInstruction, (∀ i ∈ reversed, ∀ aim ∈ i.aims, 0 ≤ aim.2) →
      Guards listAims (List.map FreeInstruction.checked)
        (pure (reversed.map FreeInstruction.checked).reverse) (pure reversed.reverse) := by
    intro reversed fine
    rw [← List.map_reverse]
    refine .pure reversed.reverse fun aim member => ?_
    obtain ⟨i, inside, isAim⟩ := List.mem_flatMap.mp member
    exact fine i (List.mem_reverse.mp inside) aim isAim
  induction fuel generalizing reversed with
  | zero => exact stop reversed fine
  | succ fuel ih =>
      refine .plain fun atEnd => .ite _ (stop reversed fine) ?_
      refine .bind (guards_instruction pool) (fun i fineHere => ?_) ?_
      · exact ih (i :: reversed) (List.forall_mem_cons.mpr ⟨fineHere, fine⟩)
      · intro i c is c' ran aim isAim
        exact List.mem_flatMap.mpr ⟨i, mem_free_onto pool _ _ _ _ _ ran i List.mem_cons_self, isAim⟩

end Guards

section Whole

variable (pool : Pool) (bytes : List UInt8)

theorem guards_whole : Guards listAims (List.map FreeInstruction.checked) (readOnto pool bytes.length [])
    (freeOnto pool bytes.length []) := guards_onto pool bytes.length [] (List.forall_mem_nil _)

theorem read_of_free (is : List FreeInstruction) (free : freeInstructions pool bytes = .ok is)
    (fine : ∀ aim ∈ listAims is, 0 ≤ aim.2) :
    readInstructions pool bytes = .ok (is.map FreeInstruction.checked) := by
  obtain ⟨⟨_, last⟩, ran, rfl⟩ := except_map _ _ _ free
  rw [readInstructions, runOn, (guards_whole pool bytes).passes _ _ last ran fine]
  rfl

theorem blame_of_free (is : List FreeInstruction) (free : freeInstructions pool bytes = .ok is)
    (bad : ∃ aim ∈ listAims is, aim.2 < 0) : ∃ aim ∈ listAims is, aim.2 < 0 ∧
      readInstructions pool bytes = .error (.badTarget aim.1 aim.2) := by
  obtain ⟨⟨_, last⟩, ran, rfl⟩ := except_map _ _ _ free
  obtain ⟨aim, member, negative, error⟩ := (guards_whole pool bytes).blames _ _ last ran bad
  refine ⟨aim, member, negative, ?_⟩
  rw [readInstructions, runOn, error]
  rfl

theorem free_of_read (is : List RawInstruction) (read : readInstructions pool bytes = .ok is) :
    ∃ free, freeInstructions pool bytes = .ok free ∧ (∀ aim ∈ listAims free, 0 ≤ aim.2) ∧
      free.map FreeInstruction.checked = is := by
  obtain ⟨⟨_, last⟩, ran, rfl⟩ := except_map _ _ _ read
  obtain ⟨free, done, fine, same⟩ := (guards_whole pool bytes).admits _ _ last ran
  refine ⟨free, ?_, fine, same⟩
  rw [freeInstructions, runOn, done]
  rfl

end Whole

end Code

end JvmEdit
