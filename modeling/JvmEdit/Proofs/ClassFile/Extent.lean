import JvmEdit.Proofs.ClassFile.Structure
set_option autoImplicit false

namespace JvmEdit

namespace Bytes

theorem u16_of_u16 (a b : UInt8) : u16 (ofU16 a b) = [a, b] := by
  have high := a.toNat_lt
  have low := b.toNat_lt
  have whole : (ofU16 a b).toNat = a.toNat * 2 ^ 8 + b.toNat := by
    simp only [ofU16, UInt16.toNat_or, UInt16.toNat_shiftLeft, UInt8.toNat_toUInt16,
      Nat.shiftLeft_eq, UInt16.reduceToNat, Nat.reduceMod]
    rw [Nat.mod_eq_of_lt (by omega : a.toNat * 2 ^ 8 < 2 ^ 16), or_eq_add _ _ 8 low]
  have first : (ofU16 a b >>> 8).toUInt8 = a := by
    rw [← UInt8.toNat_inj, UInt16.toNat_toUInt8, UInt16.toNat_shiftRight, whole]
    simp only [Nat.shiftRight_eq_div_pow, UInt16.reduceToNat, Nat.reduceMod]
    omega
  have second : (ofU16 a b).toUInt8 = b := by
    rw [← UInt8.toNat_inj, UInt16.toNat_toUInt8, whole]
    omega
  rw [u16, first, second]

theorem u32_of_u32 (a b c d : UInt8) : u32 (ofU32 a b c d) = [a, b, c, d] := by
  have bounds := And.intro a.toNat_lt (And.intro b.toNat_lt (And.intro c.toNat_lt d.toNat_lt))
  have whole : (ofU32 a b c d).toNat =
      a.toNat * 2 ^ 24 + b.toNat * 2 ^ 16 + c.toNat * 2 ^ 8 + d.toNat := by
    simp only [ofU32, UInt32.toNat_or, UInt32.toNat_shiftLeft, UInt8.toNat_toUInt32,
      Nat.shiftLeft_eq, UInt32.reduceToNat, Nat.reduceMod]
    rw [Nat.mod_eq_of_lt (by omega : a.toNat * 2 ^ 24 < 2 ^ 32),
      Nat.mod_eq_of_lt (by omega : b.toNat * 2 ^ 16 < 2 ^ 32),
      Nat.mod_eq_of_lt (by omega : c.toNat * 2 ^ 8 < 2 ^ 32)]
    rw [or_eq_add _ _ 24 (by omega),
      show a.toNat * 2 ^ 24 + b.toNat * 2 ^ 16 = (a.toNat * 2 ^ 8 + b.toNat) * 2 ^ 16 by omega,
      or_eq_add _ _ 16 (by omega),
      show (a.toNat * 2 ^ 8 + b.toNat) * 2 ^ 16 + c.toNat * 2 ^ 8 =
        ((a.toNat * 2 ^ 8 + b.toNat) * 2 ^ 8 + c.toNat) * 2 ^ 8 by omega, or_eq_add _ _ 8 (by omega)]
  have byte : ∀ (n : Nat) (shift : UInt32) (e : UInt8), shift.toNat % 32 = n →
      (ofU32 a b c d).toNat / 2 ^ n % 2 ^ 8 = e.toNat → (ofU32 a b c d >>> shift).toUInt8 = e := by
    intro n shift e isShift isByte
    rw [← UInt8.toNat_inj, UInt32.toNat_toUInt8, UInt32.toNat_shiftRight, isShift,
      Nat.shiftRight_eq_div_pow, isByte]
  have last : (ofU32 a b c d).toUInt8 = d := by
    rw [← UInt8.toNat_inj, UInt32.toNat_toUInt8, whole]
    omega
  rw [u32, byte 24 24 a rfl (by omega), byte 16 16 b rfl (by omega), byte 8 8 c rfl (by omega), last]

end Bytes

namespace Reader

variable {α β γ : Type}

-- Whatever the reader takes is the written form of a part that means the value read.
def Splits (reader : Reader α) (write : γ → List UInt8) (means : γ → α → Prop) : Prop :=
  ∀ c a c', reader c = .ok (a, c') → ∃ part, means part a ∧ c.rest = write part ++ c'.rest

-- The bytes that a successful reader takes are read as the same value wherever they stand.
def Local (reader : Reader α) : Prop := Splits reader id fun taken a => Reads reader taken a

theorem Splits.imp {reader : Reader α} {write : γ → List UInt8} {means : γ → α → Prop}
    (splits : Splits reader write means) (reads : ∀ part a, means part a → Reads reader (write part) a) :
    Local reader := by
  intro c a c' ran
  obtain ⟨part, held, isRest⟩ := splits c a c' ran
  exact ⟨write part, reads part a held, isRest⟩

theorem Local.pure (value : α) : Local (Pure.pure value) := by
  intro c a c' ran
  cases ran
  exact ⟨[], reads_pure _, rfl⟩

theorem Local.fail (error : DecodeError) : Local (Reader.fail error : Reader α) := by
  intro c a c' ran
  cases ran

theorem lift_ran (result : Except DecodeError α) (c c' : Cursor) (a : α)
    (ran : (liftM result : Reader α) c = .ok (a, c')) : result = .ok a ∧ c' = c := by
  cases result with
  | error e => cases ran
  | ok value =>
      cases ran
      exact ⟨rfl, rfl⟩

theorem Local.lift (result : Except DecodeError α) : Local (liftM result : Reader α) := by
  intro c a c' ran
  obtain ⟨done, rfl⟩ := lift_ran result c c' a ran
  exact ⟨[], reads_lift result a done, rfl⟩

theorem Local.bind {x : Reader α} {f : α → Reader β} (head : Local x) (tail : ∀ a, Local (f a)) :
    Local (x >>= f) := by
  intro c b c'' ran
  obtain ⟨a, c', first, second⟩ := state_t_bind x f c c'' b ran
  obtain ⟨taken, reads, isRest⟩ := head c a c' first
  obtain ⟨more, later, isLater⟩ := tail a c' b c'' second
  refine ⟨taken ++ more, reads.bind later, ?_⟩
  rw [isRest, isLater]
  exact (List.append_assoc ..).symm

theorem Local.map {x : Reader α} (f : α → β) (inner : Local x) : Local (f <$> x) :=
  inner.bind fun a => .pure (f a)

theorem splits_u16 : Splits u16 Bytes.u16 Eq := by
  intro c n c' ran
  obtain ⟨rest, offset⟩ := c
  rcases rest with _ | ⟨a, _ | ⟨b, rest⟩⟩
  · cases ran
  · cases ran
  · cases ran
    exact ⟨_, rfl, by rw [Bytes.u16_of_u16]; rfl⟩

theorem splits_u32 : Splits u32 Bytes.u32 Eq := by
  intro c n c' ran
  obtain ⟨rest, offset⟩ := c
  rcases rest with _ | ⟨a, _ | ⟨b, _ | ⟨d, _ | ⟨e, rest⟩⟩⟩⟩
  · cases ran
  · cases ran
  · cases ran
  · cases ran
  · cases ran
    exact ⟨_, rfl, by rw [Bytes.u32_of_u32]; rfl⟩

theorem splits_bytes (count : Nat) :
    Splits (bytes count) id fun taken value => taken = value ∧ taken.length = count := by
  intro c value c' ran
  simp only [bytes] at ran
  by_cases enough : (c.rest.take count).length = count
  · rw [if_pos enough] at ran
    cases ran
    exact ⟨_, ⟨rfl, enough⟩, (List.take_append_drop ..).symm⟩
  · rw [if_neg enough] at ran
    cases ran

theorem local_u8 : Local u8 := by
  intro c n c' ran
  obtain ⟨rest, offset⟩ := c
  rcases rest with _ | ⟨a, rest⟩
  · cases ran
  · cases ran
    exact ⟨[n], reads_u8 n, rfl⟩

theorem local_u16 : Local u16 := splits_u16.imp fun n _ same => same ▸ reads_u16 n

theorem local_u32 : Local u32 := splits_u32.imp fun n _ same => same ▸ reads_u32 n

theorem local_u64 : Local u64 := local_u32.bind fun _ => local_u32.bind fun _ => .pure _

theorem local_bytes (count : Nat) : Local (bytes count) := by
  refine (splits_bytes count).imp ?_
  intro taken value held
  obtain ⟨rfl, rfl⟩ := held
  exact reads_bytes taken

section Lists

variable {reader : Reader α} {write : γ → List UInt8} {means : γ → α → Prop}

theorem splits_times_onto (inner : Splits reader write means) (count : Nat) (reversed : List α) :
    Splits (timesOnto reader reversed count) (fun parts => parts.flatMap write) fun parts values =>
      parts.length = count ∧ ∃ more, values = reversed.reverse ++ more ∧ List.Forall₂ means parts more := by
  induction count generalizing reversed with
  | zero =>
      intro c values c' ran
      cases ran
      exact ⟨[], ⟨rfl, [], (List.append_nil _).symm, .nil⟩, rfl⟩
  | succ count ih =>
      intro c values c'' ran
      obtain ⟨value, c', first, later⟩ := state_t_bind _ _ c c'' values ran
      obtain ⟨part, held, isRest⟩ := inner c value c' first
      obtain ⟨parts, held', isLater⟩ := ih (value :: reversed) c' values c'' later
      obtain ⟨isCount, more, isValues, each⟩ := held'
      refine ⟨part :: parts, ⟨congrArg (· + 1) isCount, value :: more, ?_, .cons held each⟩, ?_⟩
      · rw [isValues, List.reverse_cons, List.append_assoc]
        rfl
      · dsimp only at isLater ⊢
        rw [isRest, isLater, List.flatMap_cons, List.append_assoc]

theorem splits_list_of (inner : Splits reader write means) :
    Splits (listOf reader) (fun parts => Bytes.count16 parts.length ++ parts.flatMap write)
      fun parts values => parts.length ≤ 65535 ∧ List.Forall₂ means parts values := by
  intro c values c'' ran
  obtain ⟨_, c', first, later⟩ := state_t_bind _ _ c c'' values ran
  obtain ⟨n, rfl, isCount⟩ := splits_u16 c _ c' first
  obtain ⟨parts, held, isRest⟩ := splits_times_onto inner n.toNat [] c' values c'' later
  obtain ⟨isLength, more, rfl, each⟩ := held
  have bound := n.toNat_lt
  refine ⟨parts, ⟨by omega, each⟩, ?_⟩
  dsimp only [Bytes.count16] at isRest ⊢
  rw [isCount, isRest, isLength, UInt16.ofNat_toNat, List.append_assoc]

theorem local_list_of (inner : Local reader) : Local (listOf reader) := by
  refine (splits_list_of inner).imp ?_
  intro parts values held
  obtain ⟨few, each⟩ := held
  rw [List.flatMap_id]
  exact ClassFile.reads_rows reader values parts each.flip few

end Lists

end Reader

namespace PoolEntry

open Reader

theorem local_pair (make : UInt16 → UInt16 → PoolEntry) : Local (make <$> u16 <*> u16) :=
  (local_u16.map make).bind fun f => local_u16.map f

theorem local_read (tag : UInt8) (slot : Nat) : Local (PoolEntry.read tag slot) := by
  unfold PoolEntry.read
  split
  · exact local_u16.bind fun length => (local_bytes length.toNat).bind fun bytes => .pure _
  · exact (local_u32.map UInt32.toInt32).map _
  · exact local_u32.map _
  · exact local_u64.map _
  · exact local_u64.map _
  · exact local_u16.map _
  · exact local_u16.map _
  · exact local_pair _
  · exact local_pair _
  · exact local_pair _
  · exact local_pair _
  · exact (local_u8.map PoolEntry.methodHandle).bind fun f => local_u16.map f
  · exact local_u16.map _
  · exact local_pair _
  · exact local_pair _
  · exact local_u16.map _
  · exact local_u16.map _
  · exact .fail _

end PoolEntry

namespace Pool

open Reader

theorem local_read_onto (count fuel : Nat) (entries : Array PoolEntry) :
    Local (Pool.readOnto count fuel entries) := by
  induction fuel generalizing entries with
  | zero => exact .pure _
  | succ fuel ih =>
      unfold Pool.readOnto
      split
      · exact .pure _
      · exact local_u8.bind fun tag => (PoolEntry.local_read tag _).bind fun entry => ih _

theorem local_read : Local Pool.read := local_u16.bind fun _ => local_read_onto _ _ _

end Pool

namespace ClassFile

open Reader

theorem splits_utf8 (pool : Pool) :
    Splits (readUtf8 pool) Bytes.u16 fun index text => pool.utf8 index = .ok text := by
  intro c text c'' ran
  obtain ⟨_, c', first, second⟩ := state_t_bind _ _ c c'' text ran
  obtain ⟨index, rfl, isIndex⟩ := splits_u16 c _ c' first
  obtain ⟨named, rfl⟩ := lift_ran _ c' c'' text second
  exact ⟨index, named, isIndex⟩

theorem local_read_utf8 (pool : Pool) : Local (readUtf8 pool) :=
  local_u16.bind fun index => .lift (pool.utf8 index)

theorem local_read_class_name (pool : Pool) : Local (readClassName pool) :=
  local_u16.bind fun index => .lift (pool.className index)

-- The bytes of one attribute.
def Attribute.bytes (attr : Attribute) : List UInt8 :=
  Bytes.u16 attr.1 ++ Bytes.count32 attr.2.length ++ attr.2

theorem splits_attribute (pool : Pool) : Splits (readAttribute pool) Attribute.bytes
    fun attr table => Holds pool table attr ∧ table.2.length < 2 ^ 32 := by
  intro c table c' ran
  obtain ⟨_, c₁, ran₁, ran⟩ := state_t_bind _ _ c c' table ran
  obtain ⟨name, c₂, ran₂, ran⟩ := state_t_bind _ _ c₁ c' table ran
  obtain ⟨_, c₃, ran₃, ran⟩ := state_t_bind _ _ c₂ c' table ran
  obtain ⟨_, c₄, ran₄, ran⟩ := state_t_bind _ _ c₃ c' table ran
  obtain ⟨named, rfl⟩ := lift_ran _ c₁ c₂ name ran₂
  obtain ⟨index, rfl, isIndex⟩ := splits_u16 c _ _ ran₁
  obtain ⟨length, rfl, isLength⟩ := splits_u32 _ _ c₃ ran₃
  obtain ⟨body, ⟨rfl, size⟩, isBody⟩ := splits_bytes _ c₃ _ c₄ ran₄
  cases ran
  refine ⟨(index, body), ⟨⟨named, rfl⟩, size ▸ length.toNat_lt⟩, ?_⟩
  rw [isIndex, isLength, isBody, Attribute.bytes, Bytes.count32, size, UInt32.ofNat_toNat,
    List.append_assoc, List.append_assoc]
  rfl

section Attributes

variable {σ : Type} (pool : Pool) (use : σ → String → List UInt8 → Except DecodeError σ)

theorem splits_attributes_loop (count : Nat) (state : σ) :
    Splits (readAttributes.loop pool use count state)
      (fun attributes => attributes.flatMap Attribute.bytes) fun attributes final =>
        attributes.length = count ∧ ∃ tables, List.Forall₂ (Holds pool) tables attributes ∧
          (∀ table ∈ tables, table.2.length < 2 ^ 32) ∧
          tables.foldlM (fun state table => use state table.1 table.2) state = .ok final := by
  induction count generalizing state with
  | zero =>
      intro c final c' ran
      cases ran
      exact ⟨[], ⟨rfl, [], .nil, fun _ member => (List.not_mem_nil member).elim, rfl⟩, rfl⟩
  | succ count ih =>
      intro c final c'' ran
      obtain ⟨⟨name, body⟩, c₁, first, others⟩ := state_t_bind _ _ c c'' final ran
      dsimp only at others
      obtain ⟨next, c₂, second, later⟩ := state_t_bind _ _ c₁ c'' final others
      obtain ⟨used, rfl⟩ := lift_ran _ c₁ c₂ next second
      obtain ⟨attr, held, isRest⟩ := splits_attribute pool c (name, body) _ first
      obtain ⟨attributes, held', isLater⟩ := ih next _ final c'' later
      obtain ⟨isCount, tables, each, small, folded⟩ := held'
      refine ⟨attr :: attributes, ⟨congrArg (· + 1) isCount, (name, body) :: tables, .cons held.1 each, ?_, ?_⟩, ?_⟩
      · exact List.forall_mem_cons.mpr ⟨held.2, small⟩
      · rw [List.foldlM_cons, used]
        exact folded
      · dsimp only at isLater ⊢
        rw [isRest, isLater, List.flatMap_cons, List.append_assoc]

theorem splits_attributes (state : σ) :
    Splits (readAttributes pool state use) attributeBytes fun attributes final =>
      Takes pool use 65535 attributes state final := by
  intro c final c'' ran
  obtain ⟨_, c', first, later⟩ := state_t_bind _ _ c c'' final ran
  obtain ⟨n, rfl, isCount⟩ := splits_u16 c _ c' first
  obtain ⟨attributes, held, isRest⟩ := splits_attributes_loop pool use n.toNat state c' final c'' later
  obtain ⟨isLength, tables, each, small, folded⟩ := held
  have bound := n.toNat_lt
  refine ⟨attributes, ⟨by omega, tables, each, small, folded⟩, ?_⟩
  rw [isCount, isRest, attributeBytes, Bytes.count16, isLength, UInt16.ofNat_toNat, List.append_assoc]
  rfl

theorem local_attributes (state : σ) : Local (readAttributes pool state use) :=
  (splits_attributes pool use state).imp fun _ _ takes => reads_takes takes (Nat.le_refl _)

end Attributes

theorem parse_of_reads_append {α : Type} (reader : Reader α) (bytes rest : List UInt8) (value : α)
    (read : Reads reader bytes value) : parse reader (bytes ++ rest) = .ok value := by
  simp only [parse, runOn]
  rw [read]
  rfl

theorem local_read_field (pool : Pool) : Local (readField pool) := by
  rw [read_field_eq]
  exact local_u16.bind fun _ => (local_read_utf8 pool).bind fun _ => (local_read_utf8 pool).bind fun _ =>
    local_attributes pool _ _

end ClassFile

end JvmEdit
