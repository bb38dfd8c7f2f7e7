import JvmEdit.ClassFile.Encode
import JvmEdit.Proofs.ClassFile.Lines
set_option autoImplicit false

namespace JvmEdit

-- Whatever the encoder answers holds in the pool as it stands then and however much it grows.
def Promises {α : Type} (e : Encoder α) (holds : Pool → α → Prop) : Prop :=
  ∀ b b' a, b.Valid → e b = .ok (a, b') → ∀ b'', PoolBuilder.Grows b' b'' → holds b''.pool a

theorem promises_map_m {α β : Type} (f : α → Encoder β) (holds : α → Pool → β → Prop)
    (items : List α) (growing : ∀ a, Growing (f a)) (promises : ∀ a, Promises (f a) (holds a)) :
    Promises (items.mapM f) fun pool results =>
      List.Forall₂ (fun item result => holds item pool result) items results := by
  induction items with
  | nil =>
      intro b b' results _ done b'' _
      cases done
      exact .nil
  | cons item items ih =>
      intro b b' results valid done b'' grown
      rw [List.mapM_cons] at done
      obtain ⟨result, mid, first, done⟩ := state_t_bind _ _ b b' results done
      obtain ⟨later, last, rest, done⟩ := state_t_bind _ _ mid b' results done
      cases done
      have grownRest := Growing.map_m f items growing mid b' later rest
      exact .cons (promises item b mid result valid first b'' (grownRest.trans grown))
        (ih mid b' later ((growing item b mid result first).valid valid) rest b'' grown)

namespace Assembler

-- The label stands somewhere in the code.
def Context.Knows (c : Context) (label : LabelId) : Prop :=
  ∃ position, c.labels.lookup label = some position

theorem knows_of_target (c : Context) (layout : Layout) (label : LabelId) (target : Nat)
    (found : c.target layout label = .ok target) : c.Knows label := by
  simp only [Context.target] at found
  split at found
  · rename_i position known
    exact ⟨position, known⟩
  · cases found

end Assembler

namespace ClassFile

open Assembler (Context Layout)

section Rows

variable (c : Context) (layout : Layout)

theorem offset16_ok (label : LabelId) (b b' : PoolBuilder) (offset : UInt16)
    (done : offset16 c layout label b = .ok (offset, b')) :
    b' = b ∧ c.Knows label ∧ offset = UInt16.ofNat (c.place layout label) := by
  simp only [offset16] at done
  obtain ⟨target, mid, found, done⟩ := state_t_bind _ _ b b' offset done
  cases done
  cases result : c.target layout label with
  | error e =>
      rw [result] at found
      cases found
  | ok place =>
      rw [result] at found
      cases found
      refine ⟨rfl, Assembler.knows_of_target c layout label _ result, ?_⟩
      rw [Assembler.target_place c layout label _ result]

theorem growing_offset16 (label : LabelId) : Growing (offset16 c layout label) := by
  intro b b' offset done
  rw [(offset16_ok c layout label b b' offset done).1]
  exact .refl b

theorem to_nat_offset (place : Nat) (small : place ≤ 65535) : (UInt16.ofNat place).toNat = place := by
  rw [UInt16.toNat_ofNat']
  omega

def catchIndex : Option String → Encoder UInt16
  | some name => PoolBuilder.className name
  | none => pure 0

theorem growing_catch_index (catchType : Option String) : Growing (catchIndex catchType) := by
  cases catchType with
  | none => exact .pure _
  | some name => exact PoolBuilder.growing_class_name name

theorem answers_catch_index (catchType : Option String) :
    PoolBuilder.Answers (catchIndex catchType) Pool.optionalClassName catchType := by
  intro b b' index valid done b'' grown
  cases catchType with
  | none =>
      cases done
      rfl
  | some name =>
      have found := PoolBuilder.answers_class_name name b b' index valid done b'' grown
      -- slot 0 is empty, so the index of a class is never the one for no class
      have notNone : index ≠ 0 := by
        rintro rfl
        cases found
      rw [Pool.optionalClassName, if_neg notNone, found]
      rfl

theorem range_bytes_eq (range : TryRange) : rangeBytes c layout range = (do
    let start ← offset16 c layout range.start
    let stop ← offset16 c layout range.stop
    if stop ≤ start then pure [] else do
      let catchType ← catchIndex range.catchType
      let handler ← offset16 c layout range.handler
      pure [Bytes.u16 start ++ Bytes.u16 stop ++ Bytes.u16 handler ++ Bytes.u16 catchType]) := by
  simp only [rangeBytes, catchIndex]
  cases range.catchType <;> rfl

theorem growing_range_bytes (range : TryRange) : Growing (rangeBytes c layout range) := by
  rw [range_bytes_eq]
  refine (growing_offset16 c layout _).bind fun start => (growing_offset16 c layout _).bind fun stop => ?_
  by_cases empty : stop ≤ start
  · rw [if_pos empty]
    exact .pure _
  · rw [if_neg empty]
    exact (growing_catch_index _).bind fun _ => (growing_offset16 c layout _).bind fun _ => .pure _

-- A protected range by the offsets of its labels.
def rawRange (range : TryRange) : Code.RawRange :=
  ⟨UInt16.ofNat (c.place layout range.start), UInt16.ofNat (c.place layout range.stop),
    UInt16.ofNat (c.place layout range.handler), range.catchType⟩

-- The range is not empty under the layout.
def isKept (range : TryRange) : Bool := c.place layout range.start < c.place layout range.stop

structure RangeRows (range : TryRange) (pool : Pool) (rows : List (List UInt8)) : Prop where
  start : c.Knows range.start
  stop : c.Knows range.stop
  kept : isKept c layout range = true → c.Knows range.handler ∧
    ∃ row, rows = [row] ∧ Reader.Reads (readRange pool) row (rawRange c layout range)
  dropped : isKept c layout range = false → rows = []

theorem reads_range (pool : Pool) (start stop handler index : UInt16) (catchType : Option String)
    (resolved : pool.optionalClassName index = .ok catchType) :
    Reader.Reads (readRange pool)
      (Bytes.u16 start ++ Bytes.u16 stop ++ Bytes.u16 handler ++ Bytes.u16 index)
      ⟨start, stop, handler, catchType⟩ := by
  rw [List.append_assoc, List.append_assoc]
  exact (Reader.reads_u16 start).bind ((Reader.reads_u16 stop).bind ((Reader.reads_u16 handler).bind
    ((Reader.reads_u16 index).last ((Reader.reads_lift _ _ resolved).last (Reader.reads_pure _)))))

theorem promises_range (small : ∀ label, c.place layout label ≤ 65535) (range : TryRange) :
    Promises (rangeBytes c layout range) (RangeRows c layout range) := by
  intro b b' rows valid done b'' grown
  rw [range_bytes_eq] at done
  obtain ⟨start, b₁, isStart, done⟩ := state_t_bind _ _ b b' rows done
  obtain ⟨rfl, knowsStart, rfl⟩ := offset16_ok c layout _ b b₁ start isStart
  obtain ⟨stop, b₂, isStop, done⟩ := state_t_bind _ _ b₁ b' rows done
  obtain ⟨rfl, knowsStop, rfl⟩ := offset16_ok c layout _ b₁ b₂ stop isStop
  have places : (UInt16.ofNat (c.place layout range.stop) ≤ UInt16.ofNat (c.place layout range.start)) ↔
      isKept c layout range = false := by
    rw [isKept, decide_eq_false_iff_not, Nat.not_lt, UInt16.le_iff_toNat_le, to_nat_offset _ (small _),
      to_nat_offset _ (small _)]
  by_cases empty : isKept c layout range = false
  · rw [if_pos (places.mpr empty)] at done
    cases done
    exact ⟨knowsStart, knowsStop, fun kept => absurd (empty.symm.trans kept) Bool.false_ne_true,
      fun _ => rfl⟩
  · rw [if_neg (empty ∘ places.mp)] at done
    obtain ⟨index, b₃, isIndex, done⟩ := state_t_bind _ _ b₂ b' rows done
    obtain ⟨handler, b₄, isHandler, done⟩ := state_t_bind _ _ b₃ b' rows done
    obtain ⟨rfl, knowsHandler, rfl⟩ := offset16_ok c layout _ b₃ b₄ handler isHandler
    cases done
    have resolved := answers_catch_index range.catchType b₂ _ index valid isIndex b'' grown
    exact ⟨knowsStart, knowsStop, fun _ => ⟨knowsHandler, _, rfl, reads_range _ _ _ _ _ _ resolved⟩,
      fun dropped => absurd dropped empty⟩

theorem growing_index_bytes (request : Encoder UInt16) (growing : Growing request) :
    Growing (indexBytes request) := growing.map _

theorem promises_index_bytes {α : Type} (request : Encoder UInt16)
    (get : Pool → UInt16 → Except DecodeError α) (value : α)
    (answers : PoolBuilder.Answers request get value) :
    Promises (indexBytes request) fun pool bytes =>
      ∃ index, bytes = Bytes.u16 index ∧ get pool index = .ok value := by
  intro b b' bytes valid done b'' grown
  obtain ⟨index, mid, ran, done⟩ := state_t_bind request (fun index => pure (Bytes.u16 index)) b b'
    bytes done
  cases done
  exact ⟨index, rfl, answers b b' index valid ran b'' grown⟩

theorem growing_text (text : String) : Growing (indexBytes (PoolBuilder.utf8 text)) :=
  growing_index_bytes _ (PoolBuilder.growing_utf8 text)

theorem promises_text (text : String) : Promises (indexBytes (PoolBuilder.utf8 text)) fun pool bytes =>
    ∃ index, bytes = Bytes.u16 index ∧ pool.utf8 index = .ok text :=
  promises_index_bytes _ _ _ (PoolBuilder.answers_utf8 text)

theorem growing_local_bytes (v : LocalVariable) : Growing (localBytes c layout v) := by
  simp only [localBytes]
  refine (growing_offset16 c layout _).bind fun start => (growing_offset16 c layout _).bind fun stop => ?_
  refine (growing_text _).bind fun name => (growing_text _).bind fun descriptor => ?_
  cases v.signature with
  | none => exact .pure _
  | some signature => exact (growing_text _).bind fun _ => (growing_text _).bind fun _ => .pure _

-- A local variable by the offsets of its labels. Its range ends where it starts when its end lies
-- before its start.
def rawLocal (v : LocalVariable) : Code.RawLocal :=
  let start := UInt16.ofNat (c.place layout v.start)
  let stop := UInt16.ofNat (c.place layout v.stop)
  ⟨start, if stop < start then 0 else stop - start, v.name, v.descriptor, v.signature, v.slot⟩

structure LocalRows (v : LocalVariable) (pool : Pool) (rows : List UInt8 × Option (List UInt8)) :
    Prop where
  start : c.Knows v.start
  stop : c.Knows v.stop
  row : Reader.Reads (readLocal pool) rows.1 { rawLocal c layout v with signature := none }
  typed : ∀ signature, v.signature = some signature → ∃ row, rows.2 = some row ∧
    Reader.Reads (readLocalSignature pool) row ⟨(rawLocal c layout v).start, v.slot, signature⟩ ∧
    row.length = 10
  untyped : v.signature = none → rows.2 = none
  width : rows.1.length = 10

theorem reads_text (pool : Pool) (index : UInt16) (text : String)
    (resolved : pool.utf8 index = .ok text) :
    Reader.Reads (readUtf8 pool) (Bytes.u16 index) text :=
  (Reader.reads_u16 index).last (Reader.reads_lift _ _ resolved)

theorem reads_local (pool : Pool) (start length name descriptor slot : UInt16)
    (text type : String) (named : pool.utf8 name = .ok text)
    (described : pool.utf8 descriptor = .ok type) :
    Reader.Reads (readLocal pool)
      (Bytes.u16 start ++ Bytes.u16 length ++ Bytes.u16 name ++ Bytes.u16 descriptor ++ Bytes.u16 slot)
      ⟨start, length, text, type, none, slot⟩ := by
  rw [List.append_assoc, List.append_assoc, List.append_assoc]
  exact (Reader.reads_u16 start).bind ((Reader.reads_u16 length).bind
    ((reads_text pool name text named).bind ((reads_text pool descriptor type described).bind
      ((Reader.reads_u16 slot).last (Reader.reads_pure _)))))

theorem reads_local_signature (pool : Pool) (start length name descriptor slot : UInt16)
    (signature : String) (described : pool.utf8 descriptor = .ok signature) :
    Reader.Reads (readLocalSignature pool)
      (Bytes.u16 start ++ Bytes.u16 length ++ Bytes.u16 name ++ Bytes.u16 descriptor ++ Bytes.u16 slot)
      ⟨start, slot, signature⟩ := by
  rw [List.append_assoc, List.append_assoc, List.append_assoc]
  exact (Reader.reads_u16 start).bind ((Reader.reads_u16 length).bind ((Reader.reads_u16 name).bind
    ((reads_text pool descriptor signature described).bind
      ((Reader.reads_u16 slot).last (Reader.reads_pure _)))))

theorem promises_local (v : LocalVariable) :
    Promises (localBytes c layout v) (LocalRows c layout v) := by
  intro b b' rows valid done b'' grown
  unfold localBytes at done
  obtain ⟨start, b₁, isStart, done⟩ := state_t_bind _ _ b b' rows done
  obtain ⟨rfl, knowsStart, rfl⟩ := offset16_ok c layout _ b b₁ start isStart
  obtain ⟨stop, b₂, isStop, done⟩ := state_t_bind _ _ b₁ b' rows done
  obtain ⟨rfl, knowsStop, rfl⟩ := offset16_ok c layout _ b₁ b₂ stop isStop
  obtain ⟨name, b₃, isName, done⟩ := state_t_bind _ _ b₂ b' rows done
  obtain ⟨descriptor, b₄, isDescriptor, done⟩ := state_t_bind _ _ b₃ b' rows done
  have grownName := growing_text v.name b₂ b₃ name isName
  have grownDescriptor := growing_text v.descriptor b₃ b₄ descriptor isDescriptor
  have validDescriptor := grownDescriptor.valid (grownName.valid valid)
  -- the row stands in the pool as it is when its texts are entered, and in any later one
  have row : ∀ later, PoolBuilder.Grows b₄ later → ∃ i j, name = Bytes.u16 i ∧
      descriptor = Bytes.u16 j ∧ later.pool.utf8 i = .ok v.name ∧
        later.pool.utf8 j = .ok v.descriptor := by
    intro later after
    obtain ⟨i, isI, named⟩ := promises_text v.name b₂ b₃ name valid isName later
      (grownDescriptor.trans after)
    obtain ⟨j, isJ, described⟩ := promises_text v.descriptor b₃ b₄ descriptor
      (grownName.valid valid) isDescriptor later after
    exact ⟨i, j, isI, isJ, named, described⟩
  dsimp only at done
  cases signed : v.signature with
  | none =>
      rw [signed] at done
      cases done
      obtain ⟨i, j, rfl, rfl, named, described⟩ := row b'' grown
      refine ⟨knowsStart, knowsStop, ?_, ?_, fun _ => rfl, rfl⟩
      · exact reads_local b''.pool _ _ i j v.slot v.name v.descriptor named described
      · intro signature isSome
        rw [signed] at isSome
        cases isSome
  | some signature =>
      rw [signed] at done
      obtain ⟨name', b₅, isName', done⟩ := state_t_bind _ _ b₄ b' rows done
      obtain ⟨type, b₆, isType, done⟩ := state_t_bind _ _ b₅ b' rows done
      cases done
      have grownName' := growing_text v.name b₄ b₅ name' isName'
      have grownType := growing_text signature b₅ b' type isType
      obtain ⟨i, j, rfl, rfl, named, described⟩ := row b'' (grownName'.trans (grownType.trans grown))
      obtain ⟨i', rfl, _⟩ := promises_text v.name b₄ b₅ name' validDescriptor isName' b''
        (grownType.trans grown)
      obtain ⟨j', rfl, typed⟩ := promises_text signature b₅ b' type (grownName'.valid validDescriptor)
        isType b'' grown
      refine ⟨knowsStart, knowsStop, ?_, ?_, ?_, rfl⟩
      · exact reads_local b''.pool _ _ i j v.slot v.name v.descriptor named described
      · intro signature' isSome
        rw [signed] at isSome
        cases isSome
        exact ⟨_, rfl, reads_local_signature b''.pool _ _ i' j' v.slot signature typed, rfl⟩
      · intro isNone
        rw [signed] at isNone
        cases isNone

end Rows

end ClassFile

end JvmEdit
