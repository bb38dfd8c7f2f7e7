import JvmEdit.Proofs.ClassFile.Requests
import JvmEdit.Proofs.Data.Except
import Mathlib.Data.List.Forall2
set_option autoImplicit false

namespace JvmEdit

-- What a writer asks a pool for.
inductive PoolRequest
  | utf8 (text : String)
  | className (name : String)
  | field (owner name descriptor : String)
  | method (owner name descriptor : String) (isInterface : Bool)
  | dynamicCall (bootstrap : UInt16) (name descriptor : String)
  | constant (value : Constant)
  deriving DecidableEq, Repr

namespace PoolRequest

def make : PoolRequest → Encoder UInt16
  | utf8 text => PoolBuilder.utf8 text
  | className name => PoolBuilder.className name
  | field owner name descriptor => PoolBuilder.fieldRef owner name descriptor
  | method owner name descriptor isInterface => PoolBuilder.methodRef owner name descriptor isInterface
  | dynamicCall bootstrap name descriptor => PoolBuilder.dynamicCall bootstrap name descriptor
  | constant value => PoolBuilder.constant value

-- No handle of a field says that the field belongs to an interface.
def Direct : PoolRequest → Prop
  | constant value => value.Direct
  | _ => True

-- In the pool the index leads to what is asked for.
def FoundAt (p : Pool) (index : UInt16) : PoolRequest → Prop
  | utf8 text => p.utf8 index = .ok text
  | className name => p.className index = .ok name
  | field owner name descriptor => p.member index = .ok ⟨owner, name, descriptor, false⟩
  | method owner name descriptor isInterface => p.member index = .ok ⟨owner, name, descriptor, isInterface⟩
  | dynamicCall bootstrap name descriptor => p.dynamicCall index = .ok ⟨name, descriptor, bootstrap⟩
  | constant value => p.constant index = .ok value

end PoolRequest

namespace PoolBuilder

-- Once the encoder has succeeded, it gives the same answer ever after and enters nothing more.
def Repeats {α : Type} (e : Encoder α) : Prop :=
  ∀ b b' a, e b = .ok (a, b') → ∀ b'', Grows b' b'' → e b'' = .ok (a, b'')

theorem index?_push_self (b : PoolBuilder) (item : PoolItem) :
    (b.push item).index? item = some (UInt16.ofNat b.next) := by
  rcases item.text_or_key with ⟨bytes, rfl⟩ | isKey
  · exact List.lookup_cons_self
  · rw [index?_other _ item _ isKey, (push_other b item _ isKey).1, BitTrie.get?_insert, if_pos rfl]

theorem index?_push_of_found (b : PoolBuilder) (item other : PoolItem) (index : UInt16)
    (fresh : b.index? item = none) (found : b.index? other = some index) :
    (b.push item).index? other = some index := by
  rcases item.text_or_key with ⟨bytes, rfl⟩ | isKey
  · rcases other.text_or_key with ⟨bytes', rfl⟩ | isKey'
    · have apart : bytes' ≠ bytes := by
        rintro rfl
        cases fresh.symm.trans found
      change List.lookup bytes' ((bytes, UInt16.ofNat b.next) :: b.texts) = some index
      rw [List.lookup_cons, beq_false_of_ne apart]
      exact found
    · rw [index?_other _ other _ isKey'] at found ⊢
      exact found
  · obtain ⟨others, texts⟩ := push_other b item _ isKey
    rcases other.text_or_key with ⟨bytes', rfl⟩ | isKey'
    · change (b.push item).texts.lookup bytes' = some index
      rw [texts]
      exact found
    · rw [index?_other b item _ isKey] at fresh
      rw [index?_other b other _ isKey'] at found
      rw [index?_other _ other _ isKey', others, BitTrie.get?_insert, if_neg]
      · exact found
      · intro same
        rw [same] at fresh
        cases fresh.symm.trans found

theorem Grows.index? {b b' : PoolBuilder} (grown : Grows b b') {item : PoolItem} {index : UInt16}
    (found : b.index? item = some index) : b'.index? item = some index := by
  induction grown with
  | refl => exact found
  | add b' b'' other answer _ _ added ih =>
      simp only [PoolBuilder.add] at added
      split at added
      · cases added
        exact ih
      · rename_i fresh
        split at added
        · cases added
        · cases added
          exact index?_push_of_found b' other item index fresh ih

theorem repeats_add (item : PoolItem) : Repeats (add item) := by
  intro b b' index added b'' grown
  have found : b'.index? item = some index := by
    rcases add_ok b b' item index added with ⟨rfl, found⟩ | ⟨rfl, rfl, _⟩
    · exact found
    · exact index?_push_self b item
  rw [add, grown.index? found]

namespace Repeats

variable {α β : Type}

theorem bind {x : Encoder α} {f : α → Encoder β} (head : Repeats x) (tail : ∀ a, Repeats (f a))
    (growing : ∀ a, Growing (f a)) : Repeats (x >>= f) := by
  intro b b'' r done c grown
  obtain ⟨a, b', ran, later⟩ := state_t_bind x f b b'' r done
  have again := head b b' a ran c ((growing a b' b'' r later).trans grown)
  rw [state_t_bind_ok x f c c a again]
  exact tail a b' b'' r later c grown

theorem refer {x : Encoder UInt16} (head : Repeats x) (item : UInt16 → PoolItem)
    (writable : ∀ i, (item i).Writable) : Repeats (x >>= fun i => PoolBuilder.add (item i)) :=
  head.bind (fun _ => repeats_add _) fun i => .add _ (writable i)

theorem refer_both {x y : Encoder UInt16} (first : Repeats x) (second : Repeats y) (growing : Growing y)
    (item : UInt16 → UInt16 → PoolItem) (writable : ∀ i j, (item i j).Writable) :
    Repeats (x >>= fun i => y >>= fun j => PoolBuilder.add (item i j)) :=
  first.bind (fun i => second.refer (item i) (writable i)) fun i =>
    growing.bind fun j => .add _ (writable i j)

end Repeats

theorem repeats_utf8 (text : String) : Repeats (utf8 text) := by
  unfold utf8
  dsimp only
  split
  · intro b b' index done
    cases done
  · exact repeats_add _

theorem repeats_class_name (name : String) : Repeats (className name) :=
  (repeats_utf8 name).refer .classRef fun _ => trivial

theorem repeats_name_and_type (name descriptor : String) : Repeats (nameAndType name descriptor) :=
  (repeats_utf8 name).refer_both (repeats_utf8 descriptor) (growing_utf8 descriptor) .nameAndType
    fun _ _ => trivial

theorem repeats_field_ref (owner name descriptor : String) : Repeats (fieldRef owner name descriptor) :=
  (repeats_class_name owner).refer_both (repeats_name_and_type name descriptor)
    (growing_name_and_type name descriptor) .fieldRef fun _ _ => trivial

theorem repeats_method_ref (owner name descriptor : String) (isInterface : Bool) :
    Repeats (methodRef owner name descriptor isInterface) := by
  refine (repeats_class_name owner).refer_both (repeats_name_and_type name descriptor)
    (growing_name_and_type name descriptor)
    (fun i j => if isInterface then .interfaceMethodRef i j else .methodRef i j) ?_
  intro i j
  cases isInterface <;> trivial

theorem repeats_dynamic_call (bootstrap : UInt16) (name descriptor : String) :
    Repeats (dynamicCall bootstrap name descriptor) :=
  (repeats_name_and_type name descriptor).refer (.invokeDynamic bootstrap) fun _ => trivial

theorem repeats_handle_member (kind : UInt8) (owner name descriptor : String) (isInterface : Bool) :
    Repeats (handleMember kind owner name descriptor isInterface) := by
  simp only [handleMember]
  split
  · exact repeats_field_ref owner name descriptor
  · exact repeats_method_ref owner name descriptor isInterface

theorem repeats_constant (value : Constant) : Repeats (constant value) := by
  cases value with
  | int value => exact repeats_add _
  | float bits => exact repeats_add _
  | long value => exact repeats_add _
  | double bits => exact repeats_add _
  | string text => exact (repeats_utf8 text).refer .string fun _ => trivial
  | classRef name => exact repeats_class_name name
  | methodType descriptor => exact (repeats_utf8 descriptor).refer .methodType fun _ => trivial
  | methodHandle kind owner name descriptor isInterface =>
      rw [constant_method_handle]
      exact (repeats_handle_member kind owner name descriptor isInterface).refer (.methodHandle kind)
        fun _ => trivial
  | dynamic name descriptor bootstrap =>
      exact (repeats_name_and_type name descriptor).refer (.dynamic bootstrap) fun _ => trivial

end PoolBuilder

namespace PoolRequest

open PoolBuilder (Grows Repeats)

variable (r : PoolRequest)

theorem growing_make : Growing r.make := by
  cases r with
  | utf8 text => exact PoolBuilder.growing_utf8 text
  | className name => exact PoolBuilder.growing_class_name name
  | field owner name descriptor => exact PoolBuilder.growing_field_ref owner name descriptor
  | method owner name descriptor isInterface =>
      exact PoolBuilder.growing_method_ref owner name descriptor isInterface
  | dynamicCall bootstrap name descriptor => exact PoolBuilder.growing_dynamic_call bootstrap name descriptor
  | constant value => exact PoolBuilder.growing_constant value

theorem repeats_make : Repeats r.make := by
  cases r with
  | utf8 text => exact PoolBuilder.repeats_utf8 text
  | className name => exact PoolBuilder.repeats_class_name name
  | field owner name descriptor => exact PoolBuilder.repeats_field_ref owner name descriptor
  | method owner name descriptor isInterface =>
      exact PoolBuilder.repeats_method_ref owner name descriptor isInterface
  | dynamicCall bootstrap name descriptor => exact PoolBuilder.repeats_dynamic_call bootstrap name descriptor
  | constant value => exact PoolBuilder.repeats_constant value

theorem found_at_make (direct : r.Direct) {b b' b'' : PoolBuilder} {index : UInt16} (valid : b.Valid)
    (made : r.make b = .ok (index, b')) (grown : Grows b' b'') : r.FoundAt b''.pool index := by
  cases r with
  | utf8 text => exact PoolBuilder.answers_utf8 text b b' index valid made b'' grown
  | className name => exact PoolBuilder.answers_class_name name b b' index valid made b'' grown
  | field owner name descriptor =>
      exact PoolBuilder.answers_field_ref owner name descriptor b b' index valid made b'' grown
  | method owner name descriptor isInterface =>
      exact PoolBuilder.answers_method_ref owner name descriptor isInterface b b' index valid made b'' grown
  | dynamicCall bootstrap name descriptor =>
      exact PoolBuilder.answers_dynamic_call bootstrap name descriptor b b' index valid made b'' grown
  | constant value => exact PoolBuilder.answers_constant value direct b b' index valid made b'' grown

theorem FoundAt.entry {r : PoolRequest} {p : Pool} {index : UInt16} (found : r.FoundAt p index) :
    ∃ entry, p.get? index = some entry ∧ entry ≠ .empty := by
  cases held : p.get? index with
  | none => cases r <;> simp [FoundAt, Pool.utf8, Pool.className, Pool.member, Pool.dynamicCall,
      Pool.constant, held] at found
  | some entry =>
      refine ⟨entry, rfl, ?_⟩
      rintro rfl
      cases r <;> simp [FoundAt, Pool.utf8, Pool.className, Pool.member, Pool.dynamicCall, Pool.constant,
        held] at found

theorem FoundAt.bounds {r : PoolRequest} {b : PoolBuilder} (valid : b.Valid) {index : UInt16}
    (found : r.FoundAt b.pool index) : 1 ≤ index.toNat ∧ index.toNat < b.next := by
  obtain ⟨entry, held, filled⟩ := found.entry
  rw [PoolBuilder.get?_pool] at held
  have inside := (List.getElem?_eq_some_iff.mp held).1
  refine ⟨Nat.pos_of_ne_zero fun first => filled ?_, valid.next ▸ inside⟩
  rw [first] at held
  exact (Option.some.inj held).symm

-- On the way from the one builder to the other the request is answered with the index.
def Answered (b b' : PoolBuilder) (index : UInt16) : Prop :=
  ∃ before after, Grows b before ∧ r.make before = .ok (index, after) ∧ Grows after b'

theorem answered_map_m (requests : List PoolRequest) (indices : List UInt16) (b b' : PoolBuilder)
    (made : requests.mapM make b = .ok (indices, b')) :
    Grows b b' ∧ List.Forall₂ (fun r index => Answered r b b' index) requests indices := by
  induction requests generalizing b indices with
  | nil =>
      cases made
      exact ⟨.refl _, .nil⟩
  | cons r requests ih =>
      rw [List.mapM_cons] at made
      obtain ⟨index, mid, ran, made⟩ := state_t_bind _ _ b b' indices made
      obtain ⟨later, last, ranLater, made⟩ := state_t_bind _ _ mid b' indices made
      cases made
      obtain ⟨grown, answered⟩ := ih later mid ranLater
      have first := r.growing_make b mid index ran
      refine ⟨first.trans grown, .cons ⟨b, mid, .refl b, ran, grown⟩ (answered.imp ?_)⟩
      rintro r index ⟨before, after, reached, ran, onward⟩
      exact ⟨before, after, first.trans reached, ran, onward⟩

-- The written pool is read back to its last byte, and under every index that was answered stands what had
-- been asked for. No slot is numbered beyond what the count in front of the pool can say.
theorem read_back_requests (requests : List PoolRequest) (indices : List UInt16) (b : PoolBuilder)
    (direct : ∀ r ∈ requests, r.Direct) (made : requests.mapM make {} = .ok (indices, b)) :
    indices.length = requests.length ∧
    (∃ pool count entries, b.write = Bytes.u16 count ++ entries ∧ count.toNat = b.next ∧
      Reader.Reads Pool.read b.write pool ∧
      ∀ (k : Nat) r index, requests[k]? = some r → indices[k]? = some index →
        r.FoundAt pool index ∧ 1 ≤ index.toNat ∧ index < count) ∧
    ∀ (j k : Nat) r, requests[j]? = some r → requests[k]? = some r → indices[j]? = indices[k]? := by
  obtain ⟨grown, answered⟩ := answered_map_m requests indices {} b made
  have valid := grown.valid PoolBuilder.valid_empty
  have bound := valid.bound
  have count : (UInt16.ofNat b.next).toNat = b.next := by
    rw [UInt16.toNat_ofNat']
    omega
  have listed : ∀ (k : Nat) r index, requests[k]? = some r → indices[k]? = some index →
      Answered r {} b index := by
    intro k r index asked told
    have paired := List.getElem?_zip_eq_some (z := (r, index)) |>.mpr ⟨asked, told⟩
    exact (List.forall₂_iff_zip.mp answered).2 (List.mem_of_getElem? paired)
  refine ⟨answered.length_eq.symm, ⟨b.pool, _, _, rfl, count, PoolBuilder.reads_pool b valid, ?_⟩, ?_⟩
  · intro k r index asked told
    obtain ⟨before, after, reached, ran, onward⟩ := listed k r index asked told
    have found := r.found_at_make (direct r (List.mem_of_getElem? asked))
      (reached.valid PoolBuilder.valid_empty) ran onward
    obtain ⟨positive, below⟩ := found.bounds valid
    exact ⟨found, positive, UInt16.lt_iff_toNat_lt.mpr (count.symm ▸ below)⟩
  · -- asked once more of the final builder, the request gives either index
    intro j k r asked asked'
    have told : ∀ k : Nat, requests[k]? = some r → ∃ index, indices[k]? = some index ∧
        r.make b = .ok (index, b) := by
      intro k asked
      obtain ⟨inside, _⟩ := List.getElem?_eq_some_iff.mp asked
      rw [answered.length_eq] at inside
      have isTold := List.getElem?_eq_getElem inside
      obtain ⟨before, after, _, ran, onward⟩ := listed k r _ asked isTold
      exact ⟨_, isTold, r.repeats_make before after _ ran b onward⟩
    obtain ⟨index, isTold, again⟩ := told j asked
    obtain ⟨index', isTold', again'⟩ := told k asked'
    cases again.symm.trans again'
    exact isTold.trans isTold'.symm

-- Entries of one slot and of two, a text with a zero and a character beyond the basic plane, a payload of
-- a number that is none, handles of a field and of an interface's method, and requests that come again.
def varied : List PoolRequest :=
  [.constant (.string "a\x00𝄞"), .constant (.long (-1)), .constant (.double 0x7ff8000000000001),
    .field "A" "x" "I", .constant (.methodHandle 2 "A" "x" "I" false),
    .constant (.methodHandle 9 "A" "f" "()V" true), .method "A" "f" "()V" true,
    .constant (.dynamic "d" "I" 3), .dynamicCall 3 "d" "I", .constant (.long (-1)), .className "A"]

theorem read_back_requests_varied : (∀ r ∈ varied, r.Direct) ∧
    ∃ b, varied.mapM make {} = .ok ([2, 3, 5, 12, 13, 18, 17, 21, 22, 3, 8], b) ∧
      ∃ pool, Reader.Reads Pool.read b.write pool ∧
        pool.constant 2 = .ok (.string "a\x00𝄞") ∧ pool.constant 5 = .ok (.double 0x7ff8000000000001) ∧
        pool.member 17 = .ok ⟨"A", "f", "()V", true⟩ ∧
        pool.constant 18 = .ok (.methodHandle 9 "A" "f" "()V" true) := by
  have direct : ∀ r ∈ varied, r.Direct := by
    simp [varied, Direct, Constant.Direct]
  refine ⟨direct, ?_⟩
  obtain ⟨⟨_, b⟩, made, rfl⟩ := except_shown (varied.mapM make {}) Prod.fst
    [2, 3, 5, 12, 13, 18, 17, 21, 22, 3, 8] (by decide +kernel)
  obtain ⟨_, ⟨pool, _, _, _, _, reads, found⟩, _⟩ := read_back_requests varied _ b direct made
  exact ⟨b, made, pool, reads, (found 0 _ _ rfl rfl).1, (found 2 _ _ rfl rfl).1, (found 6 _ _ rfl rfl).1,
    (found 5 _ _ rfl rfl).1⟩

end PoolRequest

end JvmEdit
