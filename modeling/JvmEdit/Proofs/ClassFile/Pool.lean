import JvmEdit.ClassFile.Bytes
import JvmEdit.ClassFile.Pool
import JvmEdit.ClassFile.PoolBuilder
import JvmEdit.Proofs.Text.ModifiedUtf8
import Mathlib.Algebra.Group.Int.Defs
import Mathlib.Algebra.Group.Nat.Defs
set_option autoImplicit false

namespace JvmEdit

namespace Bytes

theorem or_eq_add (a b width : Nat) (small : b < 2 ^ width) :
    a * 2 ^ width ||| b = a * 2 ^ width + b := by
  rw [Nat.mul_comm, Nat.two_pow_add_eq_or_of_lt small]

theorem of_u16_parts (n : UInt16) : ofU16 (n >>> 8).toUInt8 n.toUInt8 = n := by
  have bound := n.toNat_lt
  rw [← UInt16.toNat_inj]
  simp only [ofU16, UInt16.toNat_or, UInt16.toNat_shiftLeft, UInt8.toNat_toUInt16,
    UInt16.toNat_toUInt8, UInt16.toNat_shiftRight, Nat.shiftRight_eq_div_pow, Nat.shiftLeft_eq,
    UInt16.reduceToNat, Nat.reduceMod]
  rw [Nat.mod_eq_of_lt (by omega : n.toNat / 2 ^ 8 % 2 ^ 8 * 2 ^ 8 < 2 ^ 16),
    or_eq_add _ _ 8 (by omega)]
  omega

theorem of_u32_parts (n : UInt32) :
    ofU32 (n >>> 24).toUInt8 (n >>> 16).toUInt8 (n >>> 8).toUInt8 n.toUInt8 = n := by
  have bound := n.toNat_lt
  rw [← UInt32.toNat_inj]
  simp only [ofU32, UInt32.toNat_or, UInt32.toNat_shiftLeft, UInt8.toNat_toUInt32,
    UInt32.toNat_toUInt8, UInt32.toNat_shiftRight, Nat.shiftRight_eq_div_pow, Nat.shiftLeft_eq,
    UInt32.reduceToNat, Nat.reduceMod]
  rw [Nat.mod_eq_of_lt (by omega : n.toNat / 2 ^ 24 % 2 ^ 8 * 2 ^ 24 < 2 ^ 32),
    Nat.mod_eq_of_lt (by omega : n.toNat / 2 ^ 16 % 2 ^ 8 * 2 ^ 16 < 2 ^ 32),
    Nat.mod_eq_of_lt (by omega : n.toNat / 2 ^ 8 % 2 ^ 8 * 2 ^ 8 < 2 ^ 32)]
  -- the parts are joined from the highest down, each sum a multiple of the next power
  rw [or_eq_add _ _ 24 (by omega),
    show n.toNat / 2 ^ 24 % 2 ^ 8 * 2 ^ 24 + n.toNat / 2 ^ 16 % 2 ^ 8 * 2 ^ 16 =
      n.toNat / 2 ^ 16 * 2 ^ 16 by omega, or_eq_add _ _ 16 (by omega),
    show n.toNat / 2 ^ 16 * 2 ^ 16 + n.toNat / 2 ^ 8 % 2 ^ 8 * 2 ^ 8 =
      n.toNat / 2 ^ 8 * 2 ^ 8 by omega, or_eq_add _ _ 8 (by omega)]
  omega

theorem joined_u64 (n : UInt64) :
    (n >>> 32).toUInt32.toUInt64 <<< 32 ||| n.toUInt32.toUInt64 = n := by
  have bound := n.toNat_lt
  rw [← UInt64.toNat_inj]
  simp only [UInt64.toNat_or, UInt64.toNat_shiftLeft, UInt32.toNat_toUInt64, UInt64.toNat_toUInt32,
    UInt64.toNat_shiftRight, Nat.shiftRight_eq_div_pow, Nat.shiftLeft_eq, UInt64.reduceToNat,
    Nat.reduceMod]
  rw [Nat.mod_eq_of_lt (by omega : n.toNat / 2 ^ 32 % 2 ^ 32 * 2 ^ 32 < 2 ^ 64),
    or_eq_add _ _ 32 (by omega)]
  omega

@[simp] theorem length_u16 (n : UInt16) : (u16 n).length = 2 := rfl

@[simp] theorem length_u32 (n : UInt32) : (u32 n).length = 4 := rfl

@[simp] theorem length_u64 (n : UInt64) : (u64 n).length = 8 := rfl

@[simp] theorem length_count16 (n : Nat) : (count16 n).length = 2 := rfl

@[simp] theorem length_count32 (n : Nat) : (count32 n).length = 4 := rfl

end Bytes

namespace Reader

variable {α β γ : Type}

-- The reader takes exactly these bytes, whatever follows them, and answers with the value.
def Reads (reader : Reader α) (bytes : List UInt8) (value : α) : Prop :=
  ∀ rest offset, reader ⟨bytes ++ rest, offset⟩ = .ok (value, ⟨rest, offset + bytes.length⟩)

theorem bind_of (x : Reader α) (f : α → Reader β) (c c' : Cursor) (a : α)
    (read : x c = .ok (a, c')) : (x >>= f) c = f a c' := by
  simp only [bind, StateT.bind, read, Except.bind]

theorem map_of (f : α → β) (x : Reader α) (c c' : Cursor) (a : α)
    (read : x c = .ok (a, c')) : (f <$> x) c = .ok (f a, c') := by
  simp only [Functor.map, StateT.map, read, bind, Except.bind, pure, Except.pure]

theorem reads_pure (value : α) : Reads (pure value) [] value := fun _ _ => rfl

theorem reads_lift (result : Except DecodeError α) (value : α) (done : result = .ok value) :
    Reads (liftM result) [] value := by
  rw [done]
  exact fun _ _ => rfl

theorem Reads.bind {x : Reader α} {f : α → Reader β} {first second : List UInt8} {a : α} {b : β}
    (head : Reads x first a) (tail : Reads (f a) second b) :
    Reads (x >>= f) (first ++ second) b := by
  intro rest offset
  rw [List.append_assoc, bind_of x f _ _ a (head _ _), tail, List.length_append, Nat.add_assoc]

theorem Reads.map {x : Reader α} {bytes : List UInt8} {a : α} (f : α → β) (read : Reads x bytes a) :
    Reads (f <$> x) bytes (f a) := fun rest offset => map_of f x _ _ a (read rest offset)

theorem Reads.last {x : Reader α} {bytes : List UInt8} {a : α} {f : α → Reader β} {b : β}
    (head : Reads x bytes a) (tail : Reads (f a) [] b) : Reads (x >>= f) bytes b := by
  have both := head.bind tail
  rwa [List.append_nil] at both

theorem reads_u8 (n : UInt8) : Reads u8 [n] n := fun _ _ => rfl

theorem reads_u16 (n : UInt16) : Reads u16 (Bytes.u16 n) n := by
  intro rest offset
  have whole := Bytes.of_u16_parts n
  simp only [Bytes.u16, u16, List.cons_append, List.nil_append, whole]
  rfl

theorem reads_u32 (n : UInt32) : Reads u32 (Bytes.u32 n) n := by
  intro rest offset
  have whole := Bytes.of_u32_parts n
  simp only [Bytes.u32, u32, List.cons_append, List.nil_append, whole]
  rfl

theorem reads_u64 (n : UInt64) : Reads u64 (Bytes.u64 n) n := by
  have joined : Reads u64 (Bytes.u32 (n >>> 32).toUInt32 ++ Bytes.u32 n.toUInt32)
      ((n >>> 32).toUInt32.toUInt64 <<< 32 ||| n.toUInt32.toUInt64) :=
    (reads_u32 _).bind ((reads_u32 _).last (reads_pure _))
  rw [Bytes.joined_u64] at joined
  exact joined

theorem reads_i8 (n : Int8) : Reads i8 [n.toUInt8] n := (reads_u8 n.toUInt8).map UInt8.toInt8

theorem reads_i16 (n : Int16) : Reads i16 (Bytes.u16 n.toUInt16) n :=
  (reads_u16 n.toUInt16).map UInt16.toInt16

theorem reads_i32 (n : Int32) : Reads i32 (Bytes.u32 n.toUInt32) n :=
  (reads_u32 n.toUInt32).map UInt32.toInt32

theorem reads_bytes (taken : List UInt8) : Reads (bytes taken.length) taken taken := by
  intro rest offset
  simp only [bytes, List.take_left, List.drop_left, if_true]

theorem reads_skip (skipped : List UInt8) : Reads (skip skipped.length) skipped () :=
  (reads_bytes skipped).last (reads_pure ())

theorem reads_times_onto (reader : Reader α) (reversed : List α) (items : List β)
    (write : β → List UInt8) (value : β → α)
    (read : ∀ item ∈ items, Reads reader (write item) (value item)) :
    Reads (timesOnto reader reversed items.length) (items.flatMap write)
      (reversed.reverse ++ items.map value) := by
  induction items generalizing reversed with
  | nil =>
      rw [List.map_nil, List.append_nil]
      exact reads_pure _
  | cons item items ih =>
      have later := ih (value item :: reversed) fun i member => read i (List.mem_cons_of_mem _ member)
      rw [List.reverse_cons, List.append_assoc] at later
      rw [List.flatMap_cons]
      exact (read item (List.mem_cons_self ..)).bind later

theorem reads_times (reader : Reader α) (items : List β) (write : β → List UInt8) (value : β → α)
    (read : ∀ item ∈ items, Reads reader (write item) (value item)) :
    Reads (times items.length reader) (items.flatMap write) (items.map value) :=
  reads_times_onto reader [] items write value read

theorem reads_list_of (reader : Reader α) (items : List β) (write : β → List UInt8) (value : β → α)
    (read : ∀ item ∈ items, Reads reader (write item) (value item)) (few : items.length ≤ 65535) :
    Reads (listOf reader) (Bytes.count16 items.length ++ items.flatMap write) (items.map value) := by
  have count : (UInt16.ofNat items.length).toNat = items.length := by
    rw [UInt16.toNat_ofNat']
    omega
  refine (reads_u16 _).bind ?_
  rw [count]
  exact reads_times reader items write value read

end Reader

namespace PoolItem

def entry : PoolItem → PoolEntry
  | utf8 bytes => .utf8 (ModifiedUtf8.decode bytes)
  | integer value => .integer value
  | float bits => .float bits
  | long value => .long value
  | double bits => .double bits
  | classRef name => .classRef name
  | string text => .string text
  | fieldRef owner pair => .fieldRef owner pair
  | methodRef owner pair => .methodRef owner pair
  | interfaceMethodRef owner pair => .interfaceMethodRef owner pair
  | nameAndType name descriptor => .nameAndType name descriptor
  | methodHandle kind reference => .methodHandle kind reference
  | methodType descriptor => .methodType descriptor
  | dynamic bootstrap pair => .dynamic bootstrap pair
  | invokeDynamic bootstrap pair => .invokeDynamic bootstrap pair

def slots (item : PoolItem) : List PoolEntry :=
  if item.entry.isWide then [item.entry, .empty] else [item.entry]

-- Only a text can be too long to be written behind its length.
def Writable : PoolItem → Prop
  | utf8 bytes => bytes.length ≤ 65535
  | _ => True

theorem length_slots (item : PoolItem) : item.slots.length = item.width := by
  cases item <;> rfl

theorem width_pos (item : PoolItem) : 0 < item.width := by
  cases item <;> simp [width]

theorem slots_head (item : PoolItem) : ∃ rest, item.slots = item.entry :: rest := by
  simp only [slots]
  split
  · exact ⟨_, rfl⟩
  · exact ⟨_, rfl⟩

def tag : PoolItem → UInt8
  | utf8 _ => 1
  | integer _ => 3
  | float _ => 4
  | long _ => 5
  | double _ => 6
  | classRef _ => 7
  | string _ => 8
  | fieldRef .. => 9
  | methodRef .. => 10
  | interfaceMethodRef .. => 11
  | nameAndType .. => 12
  | methodHandle .. => 15
  | methodType _ => 16
  | dynamic .. => 17
  | invokeDynamic .. => 18

theorem write_eq (item : PoolItem) : item.write = item.tag :: item.write.tail := by
  cases item <;> rfl

theorem reads_pair (make : UInt16 → UInt16 → PoolEntry) (a b : UInt16) :
    Reader.Reads (make <$> Reader.u16 <*> Reader.u16) (Bytes.u16 a ++ Bytes.u16 b) (make a b) :=
  ((Reader.reads_u16 a).map make).bind ((Reader.reads_u16 b).map (make a))

theorem reads_entry (item : PoolItem) (slot : Nat) (writable : item.Writable) :
    Reader.Reads (PoolEntry.read item.tag slot) item.write.tail item.entry := by
  cases item with
  | utf8 bytes =>
      have length : (UInt16.ofNat bytes.length).toNat = bytes.length := by
        rw [UInt16.toNat_ofNat']
        have few : bytes.length ≤ 65535 := writable
        omega
      refine (Reader.reads_u16 (UInt16.ofNat bytes.length)).bind ?_
      rw [length]
      exact (Reader.reads_bytes bytes).last (Reader.reads_pure _)
  | integer value => exact (Reader.reads_i32 value).map _
  | float bits => exact (Reader.reads_u32 bits).map _
  | long value => exact (Reader.reads_u64 value.toUInt64).map fun bits => PoolEntry.long bits.toInt64
  | double bits => exact (Reader.reads_u64 bits).map _
  | classRef name => exact (Reader.reads_u16 name).map _
  | string text => exact (Reader.reads_u16 text).map _
  | fieldRef owner pair => exact reads_pair _ owner pair
  | methodRef owner pair => exact reads_pair _ owner pair
  | interfaceMethodRef owner pair => exact reads_pair _ owner pair
  | nameAndType name descriptor => exact reads_pair _ name descriptor
  | methodHandle kind reference =>
      exact ((Reader.reads_u8 kind).map PoolEntry.methodHandle).bind ((Reader.reads_u16 reference).map _)
  | methodType descriptor => exact (Reader.reads_u16 descriptor).map _
  | dynamic bootstrap pair => exact reads_pair _ bootstrap pair
  | invokeDynamic bootstrap pair => exact reads_pair _ bootstrap pair

end PoolItem

namespace Pool

theorem reads_read_onto (count fuel : Nat) (items : List PoolItem) (entries : Array PoolEntry)
    (enough : items.length ≤ fuel)
    (filled : entries.size + (items.flatMap PoolItem.slots).length = count)
    (writable : ∀ item ∈ items, item.Writable) :
    Reader.Reads (readOnto count fuel entries) (items.flatMap PoolItem.write)
      ⟨entries ++ (items.flatMap PoolItem.slots).toArray⟩ := by
  induction items generalizing fuel entries with
  | nil =>
      have stop : count ≤ entries.size := by
        rw [← filled]
        simp
      cases fuel with
      | zero => simpa [readOnto] using Reader.reads_pure _
      | succ fuel =>
          rw [readOnto, if_pos stop]
          simpa using Reader.reads_pure _
  | cons item items ih =>
      have more : ¬count ≤ entries.size := by
        have wide := item.width_pos
        rw [← item.length_slots] at wide
        rw [List.flatMap_cons, List.length_append] at filled
        omega
      obtain ⟨fuel, rfl⟩ : ∃ rest, fuel = rest + 1 :=
        ⟨fuel - 1, by simp only [List.length_cons] at enough; omega⟩
      have grown : (if item.entry.isWide then (entries.push item.entry).push .empty
          else entries.push item.entry) = entries ++ item.slots.toArray := by
        apply Array.toList_inj.mp
        cases wide : item.entry.isWide <;> simp [PoolItem.slots, wide]
      have later := ih fuel (entries ++ item.slots.toArray)
        (by simp only [List.length_cons] at enough; omega)
        (by rw [← filled, List.flatMap_cons]; simp; omega)
        (fun i member => writable i (List.mem_cons_of_mem _ member))
      rw [readOnto, if_neg more, List.flatMap_cons, item.write_eq, List.cons_append,
        List.flatMap_cons]
      refine Reader.Reads.bind (Reader.reads_u8 item.tag)
        ((item.reads_entry _ (writable item (List.mem_cons_self ..))).bind ?_)
      dsimp only
      rw [grown]
      simpa using later

end Pool

theorem bits_injective (width m n : Nat) (smallM : m < 2 ^ width) (smallN : n < 2 ^ width)
    (same : BitTrie.bits width m = BitTrie.bits width n) : m = n := by
  induction width generalizing m n with
  | zero => omega
  | succ width ih =>
      simp only [BitTrie.bits, List.cons.injEq] at same
      have halves := ih (m / 2) (n / 2) (by omega) (by omega) same.2
      have parity : m % 2 = 1 ↔ n % 2 = 1 := by simpa using Bool.eq_iff_iff.mp same.1
      omega

def byteBits (byte : UInt8) : List Bool := BitTrie.bits 8 byte.toNat

theorem flat_map_byte_bits_injective (a b : List UInt8)
    (same : a.flatMap byteBits = b.flatMap byteBits) : a = b := by
  have eight : ∀ byte, (byteBits byte).length = 8 := fun byte => BitTrie.length_bits 8 byte.toNat
  have lengths := congrArg List.length same
  induction a generalizing b with
  | nil =>
      cases b with
      | nil => rfl
      | cons y b =>
          rw [List.flatMap_nil, List.flatMap_cons, List.length_append, eight, List.length_nil]
            at lengths
          omega
  | cons x a ih =>
      cases b with
      | nil =>
          rw [List.flatMap_nil, List.flatMap_cons, List.length_append, eight, List.length_nil]
            at lengths
          omega
      | cons y b =>
          rw [List.flatMap_cons, List.flatMap_cons] at same
          obtain ⟨first, later⟩ := List.append_inj same ((eight x).trans (eight y).symm)
          have byte : x = y := UInt8.toNat_inj.mp
            (bits_injective 8 _ _ (UInt8.toNat_lt x) (UInt8.toNat_lt y) first)
          rw [byte, ih b later (congrArg List.length later)]

namespace PoolItem

theorem text_or_key (item : PoolItem) : (∃ bytes, item = .utf8 bytes) ∨
    item.key? = some (item.write.flatMap byteBits) := by
  cases item with
  | utf8 bytes => exact Or.inl ⟨bytes, rfl⟩
  | _ => exact Or.inr rfl

theorem writable_of_key (item : PoolItem) (key : List Bool) (other : item.key? = some key) :
    item.Writable := by
  cases item with
  | utf8 bytes => cases other
  | _ => trivial

theorem entry_of_key (a b : PoolItem) (key : List Bool) (left : a.key? = some key)
    (right : b.key? = some key) : a.entry = b.entry := by
  have keyed : ∀ item : PoolItem, item.key? = some key → item.write.flatMap byteBits = key := by
    intro item isKey
    rcases item.text_or_key with ⟨bytes, rfl⟩ | isKey'
    · cases isKey
    · exact Option.some.inj (isKey'.symm.trans isKey)
  have bytes := flat_map_byte_bits_injective _ _ ((keyed a left).trans (keyed b right).symm)
  rw [a.write_eq, b.write_eq, List.cons.injEq] at bytes
  have readA := a.reads_entry 0 (a.writable_of_key key left) [] 0
  have readB := b.reads_entry 0 (b.writable_of_key key right) [] 0
  rw [bytes.1, bytes.2, readB] at readA
  exact (Prod.mk.inj (Except.ok.inj readA)).1.symm

end PoolItem

theorem state_t_bind {σ ε α β : Type} (x : StateT σ (Except ε) α) (f : α → StateT σ (Except ε) β)
    (b b'' : σ) (r : β) (done : (x >>= f) b = .ok (r, b'')) :
    ∃ a b', x b = .ok (a, b') ∧ f a b' = .ok (r, b'') := by
  simp only [bind, StateT.bind] at done
  cases ran : x b with
  | error e =>
      rw [ran] at done
      cases done
  | ok result =>
      rw [ran] at done
      exact ⟨result.1, result.2, rfl, done⟩

theorem state_t_bind_ok {σ ε α β : Type} (x : StateT σ (Except ε) α) (f : α → StateT σ (Except ε) β)
    (b b' : σ) (a : α) (ran : x b = .ok (a, b')) : (x >>= f) b = f a b' := by
  simp only [bind, StateT.bind, ran, Except.bind]

namespace PoolBuilder

def entries (b : PoolBuilder) : List PoolEntry := .empty :: b.items.reverse.flatMap PoolItem.slots

def pool (b : PoolBuilder) : Pool := ⟨b.entries.toArray⟩

structure Valid (b : PoolBuilder) : Prop where
  next : b.next = b.entries.length
  bound : b.next ≤ 65535
  writable : ∀ item ∈ b.items, item.Writable
  found : ∀ item index, b.index? item = some index → b.entries[index.toNat]? = some item.entry

theorem valid_empty : Valid {} := by
  refine ⟨rfl, by decide, ?_, ?_⟩
  · intro item member
    cases member
  · intro item index found
    have none : index? {} item = none := by
      cases item with
      | utf8 bytes => rfl
      | _ => exact BitTrie.get?_empty _
    rw [none] at found
    cases found

theorem index?_other (b : PoolBuilder) (item : PoolItem) (key : List Bool)
    (isKey : item.key? = some key) : b.index? item = b.others.get? key := by
  cases item with
  | utf8 bytes => cases isKey
  | _ => cases isKey; rfl

theorem push_other (b : PoolBuilder) (item : PoolItem) (key : List Bool)
    (isKey : item.key? = some key) : (b.push item).others =
      b.others.insert (UInt16.ofNat b.next) key ∧ (b.push item).texts = b.texts := by
  cases item with
  | utf8 bytes => cases isKey
  | _ => cases isKey; exact ⟨rfl, rfl⟩

theorem push_items (b : PoolBuilder) (item : PoolItem) : (b.push item).items = item :: b.items := by
  cases item <;> rfl

theorem push_next (b : PoolBuilder) (item : PoolItem) :
    (b.push item).next = b.next + item.width := by
  cases item <;> rfl

theorem entries_push (b : PoolBuilder) (item : PoolItem) :
    (b.push item).entries = b.entries ++ item.slots := by
  rw [entries, push_items, List.reverse_cons, List.flatMap_append, List.flatMap_singleton]
  rfl

theorem index?_push (b : PoolBuilder) (item other : PoolItem) (index : UInt16)
    (found : (b.push item).index? other = some index) :
    index = UInt16.ofNat b.next ∧ other.entry = item.entry ∨ b.index? other = some index := by
  rcases item.text_or_key with ⟨bytes, rfl⟩ | isKey
  · rcases other.text_or_key with ⟨bytes', rfl⟩ | isKey'
    · change List.lookup bytes' ((bytes, UInt16.ofNat b.next) :: b.texts) = some index at found
      rw [List.lookup_cons] at found
      by_cases same : bytes' = bytes
      · subst same
        simp only [beq_self_eq_true] at found
        exact Or.inl ⟨(Option.some.inj found).symm, rfl⟩
      · simp only [beq_false_of_ne same] at found
        exact Or.inr found
    · rw [index?_other _ other _ isKey'] at found
      rw [index?_other b other _ isKey']
      exact Or.inr found
  · obtain ⟨others, texts⟩ := push_other b item _ isKey
    rcases other.text_or_key with ⟨bytes', rfl⟩ | isKey'
    · change (b.push item).texts.lookup bytes' = some index at found
      rw [texts] at found
      exact Or.inr found
    · rw [index?_other _ other _ isKey', others, BitTrie.get?_insert] at found
      split at found
      · rename_i same
        rw [same] at isKey
        exact Or.inl ⟨(Option.some.inj found).symm, PoolItem.entry_of_key _ _ _ isKey' isKey⟩
      · rw [index?_other b other _ isKey']
        exact Or.inr found

theorem get_elem?_entries_push (b : PoolBuilder) (item : PoolItem) :
    (b.push item).entries[b.entries.length]? = some item.entry := by
  obtain ⟨rest, head⟩ := item.slots_head
  rw [entries_push, head]
  simp

theorem valid_push (b : PoolBuilder) (item : PoolItem) (valid : b.Valid) (writable : item.Writable)
    (room : b.next + item.width ≤ 65535) : (b.push item).Valid := by
  have wide := item.width_pos
  refine ⟨?_, ?_, ?_, ?_⟩
  · rw [push_next, entries_push, List.length_append, item.length_slots, valid.next]
  · rw [push_next]
    exact room
  · intro other member
    rw [push_items] at member
    rcases List.mem_cons.mp member with rfl | earlier
    · exact writable
    · exact valid.writable other earlier
  · intro other index found
    rcases index?_push b item other index found with ⟨rfl, same⟩ | before
    · have slot : (UInt16.ofNat b.next).toNat = b.entries.length := by
        rw [UInt16.toNat_ofNat', ← valid.next]
        omega
      rw [slot, same]
      exact get_elem?_entries_push b item
    · have held := valid.found other index before
      rw [entries_push, List.getElem?_append_left]
      · exact held
      · exact (List.getElem?_eq_some_iff.mp held).1

-- The second builder comes from the first one by more requests.
inductive Grows : PoolBuilder → PoolBuilder → Prop
  | refl (b : PoolBuilder) : Grows b b
  | add (b b' b'' : PoolBuilder) (item : PoolItem) (index : UInt16) (grown : Grows b b')
      (writable : item.Writable) (added : PoolBuilder.add item b' = .ok (index, b'')) : Grows b b''

theorem Grows.trans {a b c : PoolBuilder} (first : Grows a b) (second : Grows b c) : Grows a c := by
  induction second with
  | refl => exact first
  | add b' b'' item index _ writable added ih => exact .add a b' b'' item index ih writable added

theorem add_ok (b b' : PoolBuilder) (item : PoolItem) (index : UInt16)
    (added : add item b = .ok (index, b')) : b' = b ∧ b.index? item = some index ∨
      b' = b.push item ∧ index = UInt16.ofNat b.next ∧ b.next + item.width ≤ 65535 := by
  simp only [add] at added
  split at added
  · rename_i found
    cases added
    exact Or.inl ⟨rfl, found⟩
  · split at added
    · cases added
    · cases added
      exact Or.inr ⟨rfl, rfl, by omega⟩

theorem add_spec (b b' : PoolBuilder) (item : PoolItem) (index : UInt16) (valid : b.Valid)
    (writable : item.Writable) (added : add item b = .ok (index, b')) :
    b'.Valid ∧ b'.entries[index.toNat]? = some item.entry := by
  rcases add_ok b b' item index added with ⟨rfl, found⟩ | ⟨rfl, rfl, room⟩
  · exact ⟨valid, valid.found item index found⟩
  · refine ⟨valid_push b item valid writable room, ?_⟩
    have slot : (UInt16.ofNat b.next).toNat = b.entries.length := by
      have wide := item.width_pos
      rw [UInt16.toNat_ofNat', ← valid.next]
      omega
    rw [slot]
    exact get_elem?_entries_push b item

theorem Grows.valid {b b' : PoolBuilder} (grown : Grows b b') (valid : b.Valid) : b'.Valid := by
  induction grown with
  | refl => exact valid
  | add b' b'' item index _ writable added ih => exact (add_spec b' b'' item index ih writable added).1

theorem Grows.prefix {b b' : PoolBuilder} (grown : Grows b b') : b.entries <+: b'.entries := by
  induction grown with
  | refl => exact List.prefix_refl _
  | add b' b'' item index _ _ added ih =>
      rcases add_ok b' b'' item index added with ⟨rfl, _⟩ | ⟨rfl, _⟩
      · exact ih
      · rw [entries_push]
        exact ih.trans (List.prefix_append _ _)

theorem reads_pool (b : PoolBuilder) (valid : b.Valid) : Reader.Reads Pool.read b.write b.pool := by
  have count : (UInt16.ofNat b.next).toNat = b.next := by
    have bound := valid.bound
    rw [UInt16.toNat_ofNat']
    omega
  have length : b.items.reverse.length ≤ (b.items.reverse.flatMap PoolItem.slots).length := by
    generalize b.items.reverse = items
    induction items with
    | nil => simp
    | cons item items ih =>
        have wide := item.width_pos
        rw [← item.length_slots] at wide
        rw [List.flatMap_cons, List.length_append, List.length_cons]
        omega
  have filled := valid.next
  rw [entries, List.length_cons] at filled
  refine (Reader.reads_u16 _).bind ?_
  rw [count]
  have reads := Pool.reads_read_onto b.next b.next b.items.reverse #[.empty] (by omega)
    (by rw [filled]; simp; omega) (fun item member => valid.writable item (List.mem_reverse.mp member))
  have whole : #[PoolEntry.empty] ++ (b.items.reverse.flatMap PoolItem.slots).toArray =
      b.entries.toArray := by
    apply Array.toList_inj.mp
    simp [entries]
  rw [whole] at reads
  exact reads

end PoolBuilder

end JvmEdit
