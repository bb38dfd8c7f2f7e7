import JvmEdit.Proofs.ClassFile.Pool
set_option autoImplicit false

namespace JvmEdit

-- The encoder only ever enters more items.
def Growing {α : Type} (e : Encoder α) : Prop :=
  ∀ b b' a, e b = .ok (a, b') → PoolBuilder.Grows b b'

namespace Growing

variable {α β : Type}

theorem pure (value : α) : Growing (Pure.pure value) := by
  intro b b' a done
  cases done
  exact .refl b

theorem bind {x : Encoder α} {f : α → Encoder β} (head : Growing x) (tail : ∀ a, Growing (f a)) :
    Growing (x >>= f) := by
  intro b b'' r done
  obtain ⟨a, b', ran, later⟩ := state_t_bind x f b b'' r done
  exact (head b b' a ran).trans (tail a b' b'' r later)

theorem map {x : Encoder α} (f : α → β) (grows : Growing x) : Growing (f <$> x) :=
  grows.bind fun _ => pure _

theorem fail (e : EncodeError) : Growing (throw e : Encoder α) := by
  intro b b' a done
  cases done

theorem lift (result : Except EncodeError α) : Growing (StateT.lift result : Encoder α) := by
  intro b b' a done
  cases result with
  | error e => cases done
  | ok value =>
      cases done
      exact .refl b

theorem add (item : PoolItem) (writable : item.Writable) : Growing (PoolBuilder.add item) :=
  fun b b' index added => .add b b b' item index (.refl b) writable added

theorem map_m (f : α → Encoder β) (items : List α) (each : ∀ a, Growing (f a)) :
    Growing (items.mapM f) := by
  induction items with
  | nil => exact pure _
  | cons a items ih =>
      rw [List.mapM_cons]
      exact (each a).bind fun _ => ih.bind fun _ => pure _

end Growing

namespace PoolBuilder

theorem get?_pool (b : PoolBuilder) (index : UInt16) :
    b.pool.get? index = b.entries[index.toNat]? := List.getElem?_toArray ..

theorem get?_grown (b b' : PoolBuilder) (index : UInt16) (entry : PoolEntry) (grown : Grows b b')
    (held : b.entries[index.toNat]? = some entry) : b'.pool.get? index = some entry := by
  rw [get?_pool]
  obtain ⟨more, whole⟩ := grown.prefix
  obtain ⟨small, _⟩ := List.getElem?_eq_some_iff.mp held
  rw [← whole, List.getElem?_append_left small]
  exact held

-- The index that is answered leads to the value, then and later.
def Answers {α : Type} (request : Encoder UInt16) (get : Pool → UInt16 → Except DecodeError α)
    (value : α) : Prop :=
  ∀ b b' index, b.Valid → request b = .ok (index, b') →
    ∀ b'', Grows b' b'' → get b''.pool index = .ok value

theorem answers_add {α : Type} (item : PoolItem) (get : Pool → UInt16 → Except DecodeError α)
    (value : α) (writable : item.Writable)
    (reads : ∀ (p : Pool) index, p.get? index = some item.entry → get p index = .ok value) :
    Answers (add item) get value := by
  intro b b' index valid added b'' grown
  obtain ⟨_, held⟩ := add_spec b b' item index valid writable added
  exact reads _ _ (get?_grown b' b'' index _ grown held)

theorem Answers.add {α β : Type} {first : Encoder UInt16}
    {getFirst : Pool → UInt16 → Except DecodeError α} {a : α} (answers : Answers first getFirst a)
    (growing : Growing first) (item : UInt16 → PoolItem) (get : Pool → UInt16 → Except DecodeError β)
    (value : β) (writable : ∀ i, (item i).Writable)
    (reads : ∀ (p : Pool) index i, p.get? index = some (item i).entry → getFirst p i = .ok a →
      get p index = .ok value) :
    Answers (do
      let i ← first
      PoolBuilder.add (item i)) get value := by
  intro b b' index valid done b'' grown
  obtain ⟨i, mid, ran, added⟩ := state_t_bind _ _ b b' index done
  have grownAdd := Growing.add _ (writable i) mid b' index added
  have inner := answers b mid i valid ran b'' (grownAdd.trans grown)
  have entry := (add_spec mid b' _ index ((growing b mid i ran).valid valid) (writable i) added).2
  exact reads _ index i (get?_grown b' b'' index _ grown entry) inner

theorem Answers.add_both {α β γ : Type} {first second : Encoder UInt16}
    {getFirst : Pool → UInt16 → Except DecodeError α} {a : α}
    {getSecond : Pool → UInt16 → Except DecodeError β} {c : β} (answersFirst : Answers first getFirst a)
    (growingFirst : Growing first) (answersSecond : Answers second getSecond c)
    (growingSecond : Growing second) (item : UInt16 → UInt16 → PoolItem)
    (get : Pool → UInt16 → Except DecodeError γ) (value : γ) (writable : ∀ i j, (item i j).Writable)
    (reads : ∀ (p : Pool) index i j, p.get? index = some (item i j).entry → getFirst p i = .ok a →
      getSecond p j = .ok c → get p index = .ok value) :
    Answers (do
      let i ← first
      let j ← second
      PoolBuilder.add (item i j)) get value := by
  intro b b' index valid done b'' grown
  obtain ⟨i, mid, ran, rest⟩ := state_t_bind _ _ b b' index done
  obtain ⟨j, late, ran', added⟩ := state_t_bind _ _ mid b' index rest
  have validMid := (growingFirst b mid i ran).valid valid
  have grownSecond := growingSecond mid late j ran'
  have grownAdd := Growing.add _ (writable i j) late b' index added
  have isFirst := answersFirst b mid i valid ran b'' ((grownSecond.trans grownAdd).trans grown)
  have isSecond := answersSecond mid late j validMid ran' b'' (grownAdd.trans grown)
  have entry := (add_spec late b' _ index (grownSecond.valid validMid) (writable i j) added).2
  exact reads _ index i j (get?_grown b' b'' index _ grown entry) isFirst isSecond

theorem growing_utf8 (text : String) : Growing (utf8 text) := by
  unfold utf8
  dsimp only
  split
  · exact .fail _
  · exact .add _ (by simp only [PoolItem.Writable]; omega)

theorem growing_class_name (name : String) : Growing (className name) :=
  (growing_utf8 name).bind fun _ => .add _ trivial

theorem growing_name_and_type (name descriptor : String) : Growing (nameAndType name descriptor) :=
  (growing_utf8 name).bind fun _ => (growing_utf8 descriptor).bind fun _ => .add _ trivial

theorem growing_field_ref (owner name descriptor : String) :
    Growing (fieldRef owner name descriptor) :=
  (growing_class_name owner).bind fun _ => (growing_name_and_type name descriptor).bind fun _ =>
    .add _ trivial

theorem growing_method_ref (owner name descriptor : String) (isInterface : Bool) :
    Growing (methodRef owner name descriptor isInterface) :=
  (growing_class_name owner).bind fun _ => (growing_name_and_type name descriptor).bind fun _ => by
    cases isInterface <;> exact .add _ trivial

theorem growing_dynamic_call (bootstrap : UInt16) (name descriptor : String) :
    Growing (dynamicCall bootstrap name descriptor) :=
  (growing_name_and_type name descriptor).bind fun _ => .add _ trivial

theorem answers_utf8 (text : String) : Answers (utf8 text) Pool.utf8 text := by
  unfold utf8
  dsimp only
  split
  · intro b b' index _ done
    cases done
  · refine answers_add _ _ _ (by simp only [PoolItem.Writable]; omega) ?_
    intro p index held
    rw [PoolItem.entry, ModifiedUtf8.decode_encode] at held
    rw [Pool.utf8, held]

theorem answers_class_name (name : String) : Answers (className name) Pool.className name := by
  refine (answers_utf8 name).add (growing_utf8 name) .classRef _ _ (fun _ => trivial) ?_
  intro p index i held text
  rw [Pool.className, held]
  exact text

theorem answers_name_and_type (name descriptor : String) :
    Answers (nameAndType name descriptor) Pool.nameAndType (name, descriptor) := by
  refine (answers_utf8 name).add_both (growing_utf8 name) (answers_utf8 descriptor)
    (growing_utf8 descriptor) .nameAndType _ _ (fun _ _ => trivial) ?_
  intro p index i j held named described
  rw [Pool.nameAndType, held]
  simp only [PoolItem.entry, named, described]
  rfl

theorem answers_member (owner name descriptor : String) (isInterface : Bool)
    (item : UInt16 → UInt16 → PoolItem) (writable : ∀ i j, (item i j).Writable)
    (reads : ∀ (p : Pool) index i j, p.get? index = some (item i j).entry →
      p.member index = p.memberParts i j isInterface) :
    Answers (do
      let owner ← className owner
      let pair ← nameAndType name descriptor
      add (item owner pair)) Pool.member ⟨owner, name, descriptor, isInterface⟩ := by
  refine (answers_class_name owner).add_both (growing_class_name owner)
    (answers_name_and_type name descriptor) (growing_name_and_type name descriptor) item _ _ writable ?_
  intro p index i j held owned paired
  rw [reads p index i j held, Pool.memberParts]
  simp only [paired, owned]
  rfl

theorem answers_field_ref (owner name descriptor : String) :
    Answers (fieldRef owner name descriptor) Pool.member ⟨owner, name, descriptor, false⟩ := by
  refine answers_member owner name descriptor false .fieldRef (fun _ _ => trivial) ?_
  intro p index i j held
  rw [Pool.member, held]
  rfl

theorem answers_method_ref (owner name descriptor : String) (isInterface : Bool) :
    Answers (methodRef owner name descriptor isInterface) Pool.member
      ⟨owner, name, descriptor, isInterface⟩ := by
  refine answers_member owner name descriptor isInterface
    (fun i j => if isInterface then .interfaceMethodRef i j else .methodRef i j) ?_ ?_
  · intro i j
    split <;> trivial
  · intro p index i j held
    cases isInterface <;> rw [Pool.member, held] <;> rfl

theorem answers_dynamic_call (bootstrap : UInt16) (name descriptor : String) :
    Answers (dynamicCall bootstrap name descriptor) Pool.dynamicCall
      ⟨name, descriptor, bootstrap⟩ := by
  refine (answers_name_and_type name descriptor).add (growing_name_and_type name descriptor)
    (.invokeDynamic bootstrap) _ _ (fun _ => trivial) ?_
  intro p index i held paired
  rw [Pool.dynamicCall, held]
  simp only [PoolItem.entry, paired]
  rfl

end PoolBuilder

def Constant.Direct : Constant → Prop
  | .methodHandle kind _ _ _ isInterface => kind ≤ 4 → isInterface = false
  | _ => True

namespace PoolBuilder

def handleMember (kind : UInt8) (owner name descriptor : String) (isInterface : Bool) :
    Encoder UInt16 :=
  if kind ≤ 4 then fieldRef owner name descriptor else methodRef owner name descriptor isInterface

theorem growing_handle_member (kind : UInt8) (owner name descriptor : String) (isInterface : Bool) :
    Growing (handleMember kind owner name descriptor isInterface) := by
  simp only [handleMember]
  split
  · exact growing_field_ref owner name descriptor
  · exact growing_method_ref owner name descriptor isInterface

theorem answers_handle_member (kind : UInt8) (owner name descriptor : String) (isInterface : Bool)
    (direct : kind ≤ 4 → isInterface = false) :
    Answers (handleMember kind owner name descriptor isInterface) Pool.member
      ⟨owner, name, descriptor, isInterface⟩ := by
  simp only [handleMember]
  split
  · rename_i isField
    rw [direct isField]
    exact answers_field_ref owner name descriptor
  · exact answers_method_ref owner name descriptor isInterface

theorem constant_method_handle (kind : UInt8) (owner name descriptor : String) (isInterface : Bool) :
    constant (.methodHandle kind owner name descriptor isInterface) =
      handleMember kind owner name descriptor isInterface >>= fun i => add (.methodHandle kind i) := by
  simp only [handleMember]
  by_cases isField : kind ≤ 4 <;> simp only [constant, isField, if_true, if_false]

theorem growing_constant (value : Constant) : Growing (constant value) := by
  cases value with
  | int value => exact .add _ trivial
  | float bits => exact .add _ trivial
  | long value => exact .add _ trivial
  | double bits => exact .add _ trivial
  | string text => exact (growing_utf8 text).bind fun _ => .add _ trivial
  | classRef name => exact growing_class_name name
  | methodType descriptor => exact (growing_utf8 descriptor).bind fun _ => .add _ trivial
  | methodHandle kind owner name descriptor isInterface =>
      rw [constant_method_handle]
      exact (growing_handle_member kind owner name descriptor isInterface).bind fun _ =>
        .add (.methodHandle kind _) trivial
  | dynamic name descriptor bootstrap =>
      exact (growing_name_and_type name descriptor).bind fun _ => .add _ trivial

theorem answers_constant (value : Constant) (direct : value.Direct) :
    Answers (constant value) Pool.constant value := by
  cases value with
  | int value =>
      refine answers_add _ _ _ trivial fun p index held => ?_
      rw [Pool.constant, held]
      rfl
  | float bits =>
      refine answers_add _ _ _ trivial fun p index held => ?_
      rw [Pool.constant, held]
      rfl
  | long value =>
      refine answers_add _ _ _ trivial fun p index held => ?_
      rw [Pool.constant, held]
      rfl
  | double bits =>
      refine answers_add _ _ _ trivial fun p index held => ?_
      rw [Pool.constant, held]
      rfl
  | string text =>
      refine (answers_utf8 text).add (growing_utf8 text) .string _ _ (fun _ => trivial) ?_
      intro p index i held read
      rw [Pool.constant, held]
      simp only [PoolItem.entry, read]
      rfl
  | classRef name =>
      refine (answers_utf8 name).add (growing_utf8 name) .classRef _ _ (fun _ => trivial) ?_
      intro p index i held read
      rw [Pool.constant, held]
      simp only [PoolItem.entry, read]
      rfl
  | methodType descriptor =>
      refine (answers_utf8 descriptor).add (growing_utf8 descriptor) .methodType _ _
        (fun _ => trivial) ?_
      intro p index i held read
      rw [Pool.constant, held]
      simp only [PoolItem.entry, read]
      rfl
  | methodHandle kind owner name descriptor isInterface =>
      rw [constant_method_handle]
      refine (answers_handle_member kind owner name descriptor isInterface direct).add
        (growing_handle_member kind owner name descriptor isInterface) (.methodHandle kind) _ _
        (fun _ => trivial) ?_
      intro p index i held found
      rw [Pool.constant, held]
      simp only [PoolItem.entry, found]
      rfl
  | dynamic name descriptor bootstrap =>
      refine (answers_name_and_type name descriptor).add (growing_name_and_type name descriptor)
        (.dynamic bootstrap) _ _ (fun _ => trivial) ?_
      intro p index i held paired
      rw [Pool.constant, held]
      simp only [PoolItem.entry, paired]
      rfl

end PoolBuilder

end JvmEdit
