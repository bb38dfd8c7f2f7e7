import JvmEdit.Proofs.ClassFile.Elements
import JvmEdit.Proofs.ClassFile.Extent
set_option autoImplicit false

namespace JvmEdit

namespace Reader

theorem splits_u8 : Splits u8 (fun byte => [byte]) Eq := by
  intro c byte c' ran
  obtain ⟨rest, offset⟩ := c
  rcases rest with _ | ⟨first, rest⟩
  · cases ran
  · cases ran
    exact ⟨byte, rfl, rfl⟩

theorem Splits.map {α β γ : Type} {reader : Reader α} {write : γ → List UInt8} {means : γ → α → Prop}
    (f : α → β) (splits : Splits reader write means) :
    Splits (f <$> reader) write fun part value => ∃ a, means part a ∧ value = f a := by
  intro c value c' ran
  obtain ⟨a, c₁, first, last⟩ := state_t_bind reader (fun a => pure (f a)) c c' value ran
  cases last
  obtain ⟨part, held, isRest⟩ := splits c a c' first
  exact ⟨part, ⟨a, held, rfl⟩, isRest⟩

theorem splits_skip (count : Nat) : Splits (skip count) id fun taken _ => taken.length = count := by
  intro c value c' ran
  obtain ⟨taken, c₁, first, last⟩ := state_t_bind _ _ c c' value ran
  cases last
  obtain ⟨part, held, isRest⟩ := splits_bytes count c taken c' first
  exact ⟨part, held.2, isRest⟩

end Reader

-- The entry of a whole number.
def Constant.entry? : Constant → Option PoolEntry
  | .int number => some (.integer number)
  | .long number => some (.long number)
  | _ => none

theorem Pool.get?_of_constant (pool : Pool) (index : UInt16) (value : Constant) (entry : PoolEntry)
    (found : pool.constant index = .ok value) (integral : value.entry? = some entry) :
    pool.get? index = some entry := by
  unfold constant at found
  split at found
  case h_1 present | h_3 present =>
    cases found
    cases integral
    exact present
  case h_2 | h_4 =>
    cases found
    cases integral
  case h_5 | h_6 | h_7 =>
    obtain ⟨text, _, rfl⟩ := except_map _ _ _ found
    cases integral
  case h_8 | h_9 =>
    obtain ⟨parts, _, last⟩ := except_bind _ _ _ found
    cases last
    cases integral
  case h_10 => cases found

theorem Pool.get?_of_utf8 (pool : Pool) (index : UInt16) (content : String)
    (found : pool.utf8 index = .ok content) : pool.get? index = some (.utf8 content) := by
  unfold utf8 at found
  split at found
  case h_1 present =>
    cases found
    exact present
  case h_2 => cases found

namespace ClassFile

open Reader

section Splitting

variable (pool : Pool)

-- What is read of an annotation: its texts can be looked up and its pairs can be counted.
structure AnnotationRecord.Legible (a : AnnotationRecord) : Prop where
  few : a.pairs.length ≤ 65535
  described : pool.utf8 a.descriptor = .ok (pool.textAt a.descriptor)
  named : ∀ pair ∈ a.pairs, pool.utf8 pair.1 = .ok (pool.textAt pair.1)

theorem splits_integral : Splits (readIntegral pool) Bytes.u16 fun index number =>
    (pool.get? index).bind PoolEntry.number? = some number := by
  intro c number c' ran
  obtain ⟨_, c₁, first, later⟩ := state_t_bind _ _ c c' number ran
  obtain ⟨index, rfl, isIndex⟩ := splits_u16 c _ c₁ first
  obtain ⟨value, c₂, second, last⟩ := state_t_bind _ _ c₁ c' number later
  obtain ⟨found, rfl⟩ := lift_ran _ c₁ c₂ value second
  cases value with
  | int small | long wide =>
      cases last
      refine ⟨index, ?_, isIndex⟩
      dsimp only
      rw [pool.get?_of_constant index _ _ found rfl]
      rfl
  | _ => cases last

theorem eq_tag (byte : UInt8) (letter : Char) (isLetter : Char.ofNat byte.toNat = letter) :
    byte = tag letter := by
  have scalar : byte.toNat.isValidChar := Or.inl (by have bound := byte.toNat_lt; omega)
  rw [tag, ← isLetter, Char.ofNat, dif_pos scalar]
  exact UInt8.ofNat_toNat.symm

theorem splits_number (kind : ElementKind) (keep : Int64 → AnnotationValue)
    (keeps : ∀ entry, kind.value? entry = entry.number?.map keep) :
    Splits (some <$> keep <$> readIntegral pool) Bytes.u16 fun index value =>
      (pool.get? index).bind kind.value? = value := by
  intro c value c' ran
  rw [Functor.map_map] at ran
  obtain ⟨index, ⟨number, held, rfl⟩, isIndex⟩ := (splits_integral pool).map _ c value c' ran
  refine ⟨index, ?_, isIndex⟩
  have kept := congrArg (Option.map keep) held
  rw [Option.map_bind] at kept
  rw [funext keeps]
  exact kept

theorem splits_content (kind : ElementKind)
    (keeps : ∀ content, kind.value? (.utf8 content) = some (.text content)) :
    Splits (some <$> AnnotationValue.text <$> readUtf8 pool) Bytes.u16 fun index value =>
      (pool.get? index).bind kind.value? = value := by
  intro c value c' ran
  rw [Functor.map_map] at ran
  obtain ⟨index, ⟨content, held, rfl⟩, isIndex⟩ := (splits_utf8 pool).map _ c value c' ran
  refine ⟨index, ?_, isIndex⟩
  dsimp only
  rw [pool.get?_of_utf8 index content held]
  exact keeps content

theorem splits_dropped (kind : ElementKind) (drops : ∀ entry, kind.value? entry = none) :
    Splits (do
      skip 2
      return none) Bytes.u16 fun index value => (pool.get? index).bind kind.value? = value := by
  intro c value c' ran
  obtain ⟨_, c₁, first, last⟩ := state_t_bind _ _ c c' value ran
  cases last
  obtain ⟨taken, two, isRest⟩ := splits_skip 2 c _ c' first
  obtain ⟨high, low, rfl⟩ := List.length_eq_two.mp two
  refine ⟨Bytes.ofU16 high low, ?_, ?_⟩
  · dsimp only
    cases pool.get? (Bytes.ofU16 high low) with
    | none => rfl
    | some entry => exact drops entry
  · rw [isRest, Bytes.u16_of_u16]
    rfl

theorem splits_indexed (kind : ElementKind) (arm : Reader (Option AnnotationValue)) (c c₁ c' : Cursor)
    (value : Option AnnotationValue) (byte : UInt8) (isByte : c.rest = [byte] ++ c₁.rest)
    (letter : Char.ofNat byte.toNat = kind.letter)
    (splits : Splits arm Bytes.u16 fun index value => (pool.get? index).bind kind.value? = value)
    (ran : arm c₁ = .ok (value, c')) :
    ∃ element : RawElement, element.kept pool = value ∧ c.rest = element.bytes ++ c'.rest := by
  obtain ⟨index, held, isIndex⟩ := splits c₁ value c' ran
  refine ⟨.constant kind index, held, ?_⟩
  rw [isByte, isIndex, eq_tag byte _ letter, RawElement.bytes, List.singleton_append, List.cons_append]

theorem splits_enumeral : Splits (do
      skip 4
      return none) (fun ids : UInt16 × UInt16 => Bytes.u16 ids.1 ++ Bytes.u16 ids.2)
      fun _ (value : Option AnnotationValue) => value = none := by
  intro c value c' ran
  obtain ⟨_, c₁, first, last⟩ := state_t_bind _ _ c c' value ran
  cases last
  obtain ⟨taken, four, isRest⟩ := splits_skip 4 c _ c' first
  rcases taken with _ | ⟨i, _ | ⟨j, _ | ⟨k, _ | ⟨l, _ | ⟨_, _⟩⟩⟩⟩⟩ <;> cases four
  refine ⟨(Bytes.ofU16 i j, Bytes.ofU16 k l), rfl, ?_⟩
  dsimp only
  rw [isRest, Bytes.u16_of_u16, Bytes.u16_of_u16]
  rfl

theorem splits_pair (fuel : Nat)
    (values : Splits (readElement pool fuel) RawElement.bytes fun element value => element.kept pool = value) :
    Splits (readPair pool fuel) rawPairBytes fun pair read =>
      pool.utf8 pair.1 = .ok read.1 ∧ pair.2.kept pool = read.2 := by
  intro c read c' ran
  obtain ⟨name, c₁, first, later⟩ := state_t_bind _ _ c c' read ran
  obtain ⟨value, c₂, second, last⟩ := state_t_bind _ _ c₁ c' read later
  cases last
  obtain ⟨index, isName, isIndex⟩ := splits_utf8 pool c name c₁ first
  obtain ⟨element, held, isElement⟩ := values c₁ value c' second
  refine ⟨(index, element), ⟨isName, held⟩, ?_⟩
  rw [isIndex, isElement, rawPairBytes, List.append_assoc]

theorem kept_pairs (pairs : List (UInt16 × RawElement)) (reads : List (String × Option AnnotationValue))
    (each : List.Forall₂ (fun pair read => pool.utf8 pair.1 = .ok read.1 ∧ pair.2.kept pool = read.2)
      pairs reads) :
    (∀ pair ∈ pairs, pool.utf8 pair.1 = .ok (pool.textAt pair.1)) ∧
      (pairs.filterMap fun pair => (pair.2.kept pool).map (pool.textAt pair.1, ·)) =
        reads.filterMap fun read => read.2.map (read.1, ·) := by
  induction each with
  | nil => exact ⟨List.forall_mem_nil _, rfl⟩
  | @cons pair read pairs reads first _ ih =>
      obtain ⟨named, kept⟩ := first
      have isText : pool.textAt pair.1 = read.1 := by rw [Pool.textAt, named]; rfl
      refine ⟨List.forall_mem_cons.mpr ⟨pool.utf8_text_at pair.1 read.1 named, ih.1⟩, ?_⟩
      rw [List.filterMap_cons, List.filterMap_cons, ih.2, isText, kept]

theorem splits_annotation_body (fuel : Nat)
    (values : Splits (readElement pool fuel) RawElement.bytes fun element value => element.kept pool = value) :
    Splits (readAnnotationBody pool (fuel + 1)) AnnotationRecord.bytes fun a read =>
      a.Legible pool ∧ a.kept pool = read := by
  intro c read c' ran
  rw [read_annotation_body_eq] at ran
  obtain ⟨descriptor, c₁, first, later⟩ := state_t_bind _ _ c c' read ran
  obtain ⟨reads, c₂, second, last⟩ := state_t_bind _ _ c₁ c' read later
  cases last
  obtain ⟨index, isText, isIndex⟩ := splits_utf8 pool c descriptor c₁ first
  obtain ⟨pairs, ⟨few, each⟩, isPairs⟩ := splits_list_of (splits_pair pool fuel values) c₁ reads c' second
  obtain ⟨named, kept⟩ := kept_pairs pool pairs reads each
  have described := pool.utf8_text_at index descriptor isText
  refine ⟨⟨index, pairs⟩, ⟨⟨few, described, named⟩, ?_⟩, ?_⟩
  · rw [AnnotationRecord.kept, kept]
    rw [described] at isText
    cases isText
    rfl
  · rw [isIndex, isPairs, AnnotationRecord.bytes, List.append_assoc]
    rfl

theorem splits_element (fuel : Nat) :
    Splits (readElement pool fuel) RawElement.bytes (fun element value => element.kept pool = value) ∧
      Splits (readAnnotationBody pool fuel) AnnotationRecord.bytes
        fun a read => a.Legible pool ∧ a.kept pool = read := by
  induction fuel with
  | zero =>
      constructor
      · intro c value c' ran
        rw [readElement] at ran
        cases ran
      · intro c read c' ran
        rw [readAnnotationBody] at ran
        cases ran
  | succ fuel ih =>
      obtain ⟨values, annotations⟩ := ih
      refine ⟨?_, splits_annotation_body pool fuel values⟩
      intro c value c' ran
      rw [readElement] at ran
      obtain ⟨_, c₁, first, later⟩ := state_t_bind _ _ c c' value ran
      obtain ⟨byte, rfl, letter⟩ := splits_u8 c _ c₁ first
      dsimp only at letter later
      generalize isLetter : Char.ofNat byte.toNat = name at later
      have indexed := fun kind arm same splits =>
        splits_indexed pool kind arm c c₁ c' value byte letter (isLetter.trans same) splits
      split at later
      case h_1 => exact indexed .byte _ rfl (splits_number pool .byte _ fun _ => rfl) later
      case h_2 => exact indexed .char _ rfl (splits_number pool .char _ fun _ => rfl) later
      case h_3 => exact indexed .int _ rfl (splits_number pool .int _ fun _ => rfl) later
      case h_4 => exact indexed .short _ rfl (splits_number pool .short _ fun _ => rfl) later
      case h_5 => exact indexed .long _ rfl (splits_number pool .long _ fun _ => rfl) later
      case h_6 =>
        rw [← Functor.map_map (fun number : Int64 => AnnotationValue.bool (number ≠ 0)) some] at later
        exact indexed .boolean _ rfl (splits_number pool .boolean _ fun _ => rfl) later
      case h_7 => exact indexed .text _ rfl (splits_content pool .text fun _ => rfl) later
      case h_8 => exact indexed .classInfo _ rfl (splits_content pool .classInfo fun _ => rfl) later
      case h_9 => exact indexed .float _ rfl (splits_dropped pool .float fun _ => rfl) later
      case h_10 => exact indexed .double _ rfl (splits_dropped pool .double fun _ => rfl) later
      case h_11 =>
        obtain ⟨ids, rfl, isRest⟩ := splits_enumeral c₁ value c' later
        refine ⟨.enumeral ids.1 ids.2, rfl, ?_⟩
        rw [letter, isRest, eq_tag byte _ isLetter, RawElement.bytes, List.singleton_append, List.cons_append]
      case h_12 =>
        obtain ⟨read, c₂, inner, last⟩ := state_t_bind _ _ c₁ c' value later
        cases last
        obtain ⟨a, _, isRest⟩ := annotations c₁ read c' inner
        refine ⟨.nested a.descriptor a.pairs, rfl, ?_⟩
        rw [letter, isRest, eq_tag byte _ isLetter, RawElement.bytes, pairs_bytes_eq, List.singleton_append,
          List.cons_append, AnnotationRecord.bytes]
      case h_13 =>
        obtain ⟨reads, c₂, inner, last⟩ := state_t_bind _ _ c₁ c' value later
        cases last
        obtain ⟨elements, _, isRest⟩ := splits_list_of values c₁ reads c' inner
        refine ⟨.array elements, rfl, ?_⟩
        rw [letter, isRest, eq_tag byte _ isLetter, RawElement.bytes, values_bytes_eq, List.singleton_append,
          List.cons_append]
      case h_14 => cases later

theorem parse_annotations_ok (body : List UInt8) (annotations : List Annotation)
    (read : parseAnnotations pool body = .ok annotations) :
    ∃ raws rest, body = annotationsBytes raws ++ rest ∧ raws.length ≤ 65535 ∧
      (∀ a ∈ raws, a.Legible pool) ∧ annotations = raws.map (·.kept pool) := by
  obtain ⟨result, ran, rfl⟩ := except_map _ _ _ read
  obtain ⟨raws, ⟨few, each⟩, isBody⟩ :=
    splits_list_of (splits_element pool (2 * body.length + 2)).2 ⟨body, 0⟩ result.1 result.2 ran
  refine ⟨raws, result.2.rest, isBody, few, ?_⟩
  clear isBody few ran
  generalize result.1 = annotations at each
  induction each with
  | nil => exact ⟨List.forall_mem_nil _, rfl⟩
  | cons first _ ih =>
      obtain ⟨legible, rfl⟩ := first
      exact ⟨List.forall_mem_cons.mpr ⟨legible, ih.1⟩, by rw [List.map_cons, ← ih.2]⟩

end Splitting

-- The kind and the entry that a value is written with.
def written : AnnotationValue → ElementKind × PoolEntry
  | .int number => if number.toInt32.toInt64 = number then (.int, .integer number.toInt32) else (.long, .long number)
  | .bool value => (.boolean, .integer (if value then 1 else 0))
  | .text content => (.text, .utf8 content)

-- The element holds the value in the form in which it is written.
def Shows (pool : Pool) (value : AnnotationValue) (element : RawElement) : Prop :=
  ∃ index, element = .constant (written value).1 index ∧ pool.get? index = some (written value).2

structure ShowsPair (pool : Pool) (pair : String × AnnotationValue) (raw : UInt16 × RawElement) : Prop where
  named : pool.utf8 raw.1 = .ok pair.1
  shows : Shows pool pair.2 raw.2

structure ShowsRecord (pool : Pool) (a : Annotation) (raw : AnnotationRecord) : Prop where
  described : pool.utf8 raw.descriptor = .ok a.descriptor
  pairs : List.Forall₂ (ShowsPair pool) a.values raw.pairs

section Writing

theorem keeps_form {α : Type} (request : Encoder UInt16) (get : Pool → UInt16 → Except DecodeError α)
    (answer : α) (growing : Growing request) (answers : PoolBuilder.Answers request get answer)
    (value : AnnotationValue)
    (entry : ∀ pool index, get pool index = .ok answer → pool.get? index = some (written value).2) :
    Keeps (do
      let index ← indexBytes request
      return tag (written value).1.letter :: index)
      fun pool bytes => ∃ element, bytes = element.bytes ∧ Shows pool value element := by
  refine ((keeps_found request get answer growing answers).last (tag _ :: ·)).imp ?_
  rintro pool bytes ⟨_, ⟨index, rfl, found⟩, rfl⟩
  exact ⟨.constant (written value).1 index, by rw [RawElement.bytes], index, rfl, entry pool index found⟩

theorem keeps_shown (value : AnnotationValue) : Keeps (elementBytes value) fun pool bytes =>
    ∃ element, bytes = element.bytes ∧ Shows pool value element := by
  have integral := fun (number : Constant) (direct : number.Direct) (entry : number.entry? = some (written value).2) =>
    keeps_form _ Pool.constant number (PoolBuilder.growing_constant number)
      (PoolBuilder.answers_constant number direct) value
      fun pool index found => pool.get?_of_constant index number _ found entry
  cases value with
  | int number =>
      rw [elementBytes]
      by_cases small : number.toInt32.toInt64 = number
      · have form : written (.int number) = (.int, .integer number.toInt32) := if_pos small
        have keeps := integral (.int number.toInt32) trivial (by rw [form]; rfl)
        simp only [if_pos small]
        rwa [form] at keeps
      · have form : written (.int number) = (.long, .long number) := if_neg small
        have keeps := integral (.long number) trivial (by rw [form]; rfl)
        simp only [if_neg small]
        rwa [form] at keeps
  | bool value => exact integral (.int (if value then 1 else 0)) trivial rfl
  | text content =>
      exact keeps_form _ Pool.utf8 content (PoolBuilder.growing_utf8 content)
        (PoolBuilder.answers_utf8 content) (.text content) fun pool index found =>
          pool.get?_of_utf8 index content found

theorem exists_parts {α β : Type} (write : β → List UInt8) (holds : α → β → Prop) (items : List α)
    (rows : List (List UInt8))
    (each : List.Forall₂ (fun item row => ∃ part, row = write part ∧ holds item part) items rows) :
    ∃ parts, rows.flatten = parts.flatMap write ∧ rows.length = parts.length ∧
      List.Forall₂ holds items parts := by
  induction each with
  | nil => exact ⟨[], rfl, rfl, .nil⟩
  | cons first _ ih =>
      obtain ⟨part, rfl, held⟩ := first
      obtain ⟨parts, flat, length, rest⟩ := ih
      refine ⟨part :: parts, ?_, congrArg (· + 1) length, .cons held rest⟩
      rw [List.flatten_cons, List.flatMap_cons, flat]

theorem keeps_shown_list {α β : Type} (items : List α) (write : α → Encoder (List UInt8))
    (bytes : β → List UInt8) (holds : Pool → α → β → Prop)
    (keeps : ∀ item, Keeps (write item) fun pool row => ∃ part, row = bytes part ∧ holds pool item part) :
    Keeps (listBytes items write) fun pool row => ∃ parts : List β,
      row = Bytes.count16 parts.length ++ parts.flatMap bytes ∧ List.Forall₂ (holds pool) items parts := by
  refine (keeps_rows items write _ fun item _ => keeps item).imp ?_
  rintro pool _ ⟨rows, each, rfl⟩
  obtain ⟨parts, flat, length, shown⟩ := exists_parts bytes (holds pool) items rows each
  exact ⟨parts, by rw [flat, length], shown⟩

theorem keeps_name (name : String) : Keeps (indexBytes (PoolBuilder.utf8 name)) fun pool bytes =>
    ∃ index, bytes = Bytes.u16 index ∧ pool.utf8 index = .ok name :=
  keeps_found _ Pool.utf8 name (PoolBuilder.growing_utf8 name) (PoolBuilder.answers_utf8 name)

theorem keeps_shown_pair (pair : String × AnnotationValue) : Keeps (pairBytes pair) fun pool bytes =>
    ∃ raw, bytes = rawPairBytes raw ∧ ShowsPair pool pair raw := by
  refine ((keeps_name pair.1).bind fun name => (keeps_shown pair.2).last (name ++ ·)).imp ?_
  rintro pool _ ⟨_, ⟨index, rfl, named⟩, _, ⟨element, rfl, shows⟩, rfl⟩
  exact ⟨(index, element), by rw [rawPairBytes], named, shows⟩

theorem keeps_shown_annotation (a : Annotation) : Keeps (annotationBytes a) fun pool bytes =>
    ∃ raw : AnnotationRecord, bytes = raw.bytes ∧ ShowsRecord pool a raw := by
  rw [annotation_bytes_eq]
  refine ((keeps_name a.descriptor).bind fun descriptor =>
    (keeps_shown_list a.values pairBytes rawPairBytes ShowsPair keeps_shown_pair).last (descriptor ++ ·)).imp ?_
  rintro pool _ ⟨_, ⟨index, rfl, described⟩, _, ⟨pairs, rfl, shown⟩, rfl⟩
  exact ⟨⟨index, pairs⟩, by rw [AnnotationRecord.bytes], described, shown⟩

theorem keeps_shown_annotations (annotations : List Annotation) (filled : annotations ≠ []) :
    Keeps (annotationAttribute annotations) fun pool attributes => ∃ index raws,
      attributes = [(index, annotationsBytes raws)] ∧ pool.utf8 index = .ok "RuntimeVisibleAnnotations" ∧
        List.Forall₂ (ShowsRecord pool) annotations raws := by
  rw [annotation_attribute_eq, if_neg (List.isEmpty_iff.not.mpr filled)]
  refine (keeps_single _ _ _ (keeps_shown_list annotations annotationBytes AnnotationRecord.bytes
    ShowsRecord keeps_shown_annotation)).imp ?_
  rintro pool _ ⟨index, _, rfl, isName, raws, rfl, shown⟩
  exact ⟨index, raws, rfl, isName, shown⟩

end Writing

section Room

variable {α β : Type}

-- Where so many slots of the pool are left, the writer succeeds and takes no more of them.
def Affords (e : Encoder α) (slots : Nat) : Prop :=
  ∀ b, b.next + slots ≤ 65535 → ∃ a b', e b = .ok (a, b') ∧ b'.next ≤ b.next + slots

theorem Affords.pure (value : α) : Affords (Pure.pure value) 0 := fun b _ => ⟨value, b, rfl, Nat.le_refl _⟩

theorem Affords.bind {x : Encoder α} {f : α → Encoder β} {m n : Nat} (head : Affords x m)
    (tail : ∀ a, Affords (f a) n) : Affords (x >>= f) (m + n) := by
  intro b room
  obtain ⟨a, mid, first, taken⟩ := head b (by omega)
  obtain ⟨result, last, second, taken'⟩ := tail a mid (by omega)
  exact ⟨result, last, (state_t_bind_ok x f b mid a first).trans second, by omega⟩

theorem Affords.last {x : Encoder α} {n : Nat} (head : Affords x n) (f : α → β) :
    Affords (x >>= fun a => Pure.pure (f a)) n := head.bind fun a => .pure (f a)

theorem Affords.mono {e : Encoder α} {m n : Nat} (affords : Affords e m) (le : m ≤ n) : Affords e n := by
  intro b room
  obtain ⟨a, b', done, taken⟩ := affords b (by omega)
  exact ⟨a, b', done, by omega⟩

theorem Affords.map_m (items : List α) (f : α → Encoder β) (slots : α → Nat)
    (each : ∀ item ∈ items, Affords (f item) (slots item)) :
    Affords (items.mapM f) (items.map slots).sum := by
  induction items with
  | nil => exact .pure []
  | cons item items ih =>
      obtain ⟨first, rest⟩ := List.forall_mem_cons.mp each
      rw [List.mapM_cons, List.map_cons, List.sum_cons]
      exact first.bind fun result => (ih rest).last (result :: ·)

theorem affords_add (item : PoolItem) : Affords (PoolBuilder.add item) item.width := by
  intro b room
  unfold PoolBuilder.add
  cases b.index? item with
  | some index => exact ⟨index, b, rfl, Nat.le_add_right _ _⟩
  | none => exact ⟨UInt16.ofNat b.next, b.push item, if_neg (by omega), Nat.le_of_eq (b.push_next item)⟩

-- The text can be written.
def ShortText (text : String) : Prop := (ModifiedUtf8.encode text).length ≤ 65535

theorem affords_text (text : String) (short : ShortText text) :
    Affords (indexBytes (PoolBuilder.utf8 text)) 1 := by
  have request : Affords (PoolBuilder.utf8 text) 1 := by
    rw [PoolBuilder.utf8, if_neg (Nat.not_lt.mpr short)]
    exact affords_add _
  exact request.last Bytes.u16

structure ShortTexts (a : Annotation) : Prop where
  descriptor : ShortText a.descriptor
  names : ∀ pair ∈ a.values, ShortText pair.1
  values : ∀ pair ∈ a.values, ∀ content, pair.2 = .text content → ShortText content

theorem affords_element (value : AnnotationValue) (short : ∀ content, value = .text content → ShortText content) :
    Affords (elementBytes value) 2 := by
  have number := fun (item : PoolItem) (width : item.width ≤ 2) (bytes : List UInt8 → List UInt8) =>
    ((affords_add item).last Bytes.u16).last bytes |>.mono width
  cases value with
  | int value =>
      rw [elementBytes]
      split
      · exact number (.integer _) (Nat.le_succ 1) _
      · exact number (.long _) (Nat.le_refl 2) _
  | bool value => exact number (.integer _) (Nat.le_succ 1) _
  | text content => exact ((affords_text content (short content rfl)).last _).mono (by decide)

-- A slot for the descriptor, and for each pair one for the name and two at most for the value.
def annotationSlots (a : Annotation) : Nat := 1 + 3 * a.values.length

theorem affords_annotation (a : Annotation) (short : ShortTexts a) :
    Affords (annotationBytes a) (annotationSlots a) := by
  have pairs : Affords (listBytes a.values pairBytes) (3 * a.values.length) := by
    have each := Affords.map_m a.values pairBytes (fun _ => 3) fun pair member =>
      (affords_text pair.1 (short.names pair member)).bind fun name =>
        (affords_element pair.2 (short.values pair member)).last (name ++ ·)
    rw [List.map_const', List.sum_replicate_nat, Nat.mul_comm] at each
    exact each.last _
  rw [annotation_bytes_eq]
  exact (affords_text a.descriptor short.descriptor).bind fun descriptor => pairs.last (descriptor ++ ·)

-- One more slot for the name of the attribute.
def attributeSlots (annotations : List Annotation) : Nat := (annotations.map annotationSlots).sum + 1

theorem affords_annotations (annotations : List Annotation) (short : ∀ a ∈ annotations, ShortTexts a) :
    Affords (annotationAttribute annotations) (attributeSlots annotations) := by
  rw [annotation_attribute_eq]
  split
  · exact (Affords.pure []).mono (Nat.zero_le _)
  · have list : Affords (listBytes annotations annotationBytes) (annotations.map annotationSlots).sum :=
      (Affords.map_m annotations annotationBytes annotationSlots fun a member =>
        affords_annotation a (short a member)).last _
    have name : Affords (PoolBuilder.utf8 "RuntimeVisibleAnnotations") 1 := by
      have request := affords_add (.utf8 (ModifiedUtf8.encode "RuntimeVisibleAnnotations"))
      rw [PoolBuilder.utf8, if_neg (by decide)]
      exact request
    exact list.bind fun body => (name.last (·, body)).last ([·])

end Room

section Rereading

variable (pool : Pool)

theorem Shows.kept {value : AnnotationValue} {element : RawElement} (shows : Shows pool value element) :
    element.Valid pool ∧ element.kept pool = some value := by
  obtain ⟨index, rfl, found⟩ := shows
  have reads : (written value).1.Accepts (written value).2 ∧
      (written value).1.value? (written value).2 = some value := by
    cases value with
    | int number =>
        rw [written]
        by_cases small : number.toInt32.toInt64 = number
        · rw [if_pos small]
          exact ⟨trivial, congrArg (some ∘ AnnotationValue.int) small⟩
        · rw [if_neg small]
          exact ⟨trivial, rfl⟩
    | bool value => cases value <;> exact ⟨trivial, rfl⟩
    | text content => exact ⟨trivial, rfl⟩
  exact ⟨.constant _ index _ found reads.1, by rw [RawElement.kept, found]; exact reads.2⟩

theorem ShowsRecord.kept {a : Annotation} {raw : AnnotationRecord} (shows : ShowsRecord pool a raw)
    (few : a.values.length ≤ 65535) : raw.Valid pool ∧ raw.kept pool = a := by
  have pairs : ∀ values raws, List.Forall₂ (ShowsPair pool) values raws →
      (∀ pair ∈ raws, ∃ name, pool.utf8 pair.1 = .ok name) ∧ (∀ pair ∈ raws, pair.2.Valid pool) ∧
        (raws.filterMap fun pair => (pair.2.kept pool).map (pool.textAt pair.1, ·)) = values := by
    intro values raws each
    induction each with
    | nil => exact ⟨List.forall_mem_nil _, List.forall_mem_nil _, rfl⟩
    | @cons value raw values raws first _ ih =>
        obtain ⟨valid, kept⟩ := first.shows.kept
        refine ⟨List.forall_mem_cons.mpr ⟨⟨_, first.named⟩, ih.1⟩,
          List.forall_mem_cons.mpr ⟨valid, ih.2.1⟩, ?_⟩
        have name : pool.textAt raw.1 = value.1 := by rw [Pool.textAt, first.named]; rfl
        rw [List.filterMap_cons, kept, ih.2.2, name]
        rfl
  obtain ⟨named, valid, kept⟩ := pairs a.values raw.pairs shows.pairs
  have described : pool.textAt raw.descriptor = a.descriptor := by rw [Pool.textAt, shows.described]; rfl
  refine ⟨.nested _ _ _ shows.described (shows.pairs.length_eq ▸ few) named valid, ?_⟩
  rw [AnnotationRecord.kept, kept, described]

theorem parse_annotations_shown (annotations : List Annotation) (raws : List AnnotationRecord)
    (few : annotations.length ≤ 65535) (fewValues : ∀ a ∈ annotations, a.values.length ≤ 65535)
    (shown : List.Forall₂ (ShowsRecord pool) annotations raws) (rest : List UInt8) :
    parseAnnotations pool (annotationsBytes raws ++ rest) = .ok annotations := by
  have valid : (∀ raw ∈ raws, raw.Valid pool) ∧ raws.map (·.kept pool) = annotations := by
    clear few
    induction shown with
    | nil => exact ⟨List.forall_mem_nil _, rfl⟩
    | cons first _ ih =>
        obtain ⟨small, smaller⟩ := List.forall_mem_cons.mp fewValues
        obtain ⟨valid, kept⟩ := first.kept pool small
        obtain ⟨valids, kepts⟩ := ih smaller
        exact ⟨List.forall_mem_cons.mpr ⟨valid, valids⟩, by rw [List.map_cons, kept, kepts]⟩
  rw [parse_annotations_bytes pool raws (shown.length_eq ▸ few) valid.1, valid.2]

end Rereading

-- The kind and the entry that are written for what is kept of a kind and an entry.
def ElementKind.reencoded : ElementKind → PoolEntry → ElementKind × PoolEntry
  | .boolean, entry => (.boolean, .integer (if entry.number? = some 0 then 0 else 1))
  | .text, entry | .classInfo, entry => (.text, entry)
  | _, .long number =>
      if number.toInt32.toInt64 = number then (.int, .integer number.toInt32) else (.long, .long number)
  | _, entry => (.int, entry)

-- The kinds and entries that are written as they were read.
def ElementKind.Lasts : ElementKind → PoolEntry → Prop
  | .int, .integer _ | .text, .utf8 _ => True
  | .long, .long number => number.toInt < -2 ^ 31 ∨ 2 ^ 31 ≤ number.toInt
  | .boolean, .integer number => number = 0 ∨ number = 1
  | _, _ => False

theorem to_int64_to_int32_iff (number : Int64) :
    number.toInt32.toInt64 = number ↔ -2 ^ 31 ≤ number.toInt ∧ number.toInt < 2 ^ 31 := by
  rw [← Int64.toInt_inj, Int32.toInt_toInt64, Int64.toInt_toInt32]
  simp only [Int.bmod]
  omega

theorem written_eq (kind : ElementKind) (entry : PoolEntry) (value : AnnotationValue)
    (kept : kind.value? entry = some value) : written value = kind.reencoded entry := by
  cases kind with
  | byte | char | short | int | long =>
      cases entry with
      | integer number =>
          cases kept
          rw [written, Int32.toInt32_toInt64, if_pos rfl]
          rfl
      | long number =>
          cases kept
          rfl
      | _ => cases kept
  | boolean =>
      obtain ⟨number, isNumber, rfl⟩ := Option.map_eq_some_iff.mp kept
      rw [written, ElementKind.reencoded, isNumber]
      by_cases zero : number = 0 <;> simp [zero]
  | text | classInfo =>
      cases entry <;> cases kept
      rfl
  | float | double => cases entry <;> cases kept

theorem reencoded_eq_iff (kind : ElementKind) (entry : PoolEntry) (value : AnnotationValue)
    (kept : kind.value? entry = some value) : kind.reencoded entry = (kind, entry) ↔ kind.Lasts entry := by
  cases kind with
  | byte | char | short | int =>
      cases entry with
      | integer number => simp [ElementKind.reencoded, ElementKind.Lasts]
      | long number =>
          by_cases small : number.toInt32.toInt64 = number <;>
            simp [ElementKind.reencoded, ElementKind.Lasts, small]
      | _ => cases kept
  | long =>
      cases entry with
      | integer number => simp [ElementKind.reencoded, ElementKind.Lasts]
      | long number =>
          have large : ¬number.toInt32.toInt64 = number ↔ ElementKind.long.Lasts (.long number) := by
            rw [to_int64_to_int32_iff, ElementKind.Lasts]
            omega
          rw [← large]
          simp [ElementKind.reencoded]
      | _ => cases kept
  | boolean =>
      cases entry with
      | integer number =>
          rw [ElementKind.reencoded, PoolEntry.number?, ElementKind.Lasts]
          by_cases zero : number = 0
          · simp [zero]
          · have zero' : ¬number.toInt64 = 0 := fun same => zero (by
              rw [← Int32.toInt32_toInt64 number, same]
              rfl)
            simp [zero, zero', eq_comm]
      | long number => simp [ElementKind.reencoded, ElementKind.Lasts]
      | _ => cases kept
  | text | classInfo =>
      cases entry <;> cases kept
      simp [ElementKind.reencoded, ElementKind.Lasts]
  | float | double => cases entry <;> cases kept

-- A value that was kept, and the value that it is written as.
def ReencodedElement (pool pool' : Pool) (element element' : RawElement) : Prop :=
  ∃ kind entry index index', element = .constant kind index ∧ pool.get? index = some entry ∧
    element' = .constant (kind.reencoded entry).1 index' ∧ pool'.get? index' = some (kind.reencoded entry).2

structure ReencodedPair (pool pool' : Pool) (pair pair' : UInt16 × RawElement) : Prop where
  name : ∃ text, pool.utf8 pair.1 = .ok text ∧ pool'.utf8 pair'.1 = .ok text
  element : ReencodedElement pool pool' pair.2 pair'.2

-- Of an annotation, the pairs whose values are kept are written, in their order.
structure ReencodedRecord (pool pool' : Pool) (a a' : AnnotationRecord) : Prop where
  descriptor : ∃ text, pool.utf8 a.descriptor = .ok text ∧ pool'.utf8 a'.descriptor = .ok text
  pairs : List.Forall₂ (ReencodedPair pool pool') (a.pairs.filter fun pair => (pair.2.kept pool).isSome) a'.pairs

section Rewriting

variable (pool pool' : Pool)

theorem RawElement.kept_some (element : RawElement) (value : AnnotationValue)
    (kept : element.kept pool = some value) : ∃ kind index entry, element = .constant kind index ∧
      pool.get? index = some entry ∧ kind.value? entry = some value := by
  cases element with
  | constant kind index =>
      obtain ⟨entry, found, isValue⟩ := Option.bind_eq_some_iff.mp kept
      exact ⟨kind, index, entry, rfl, found, isValue⟩
  | enumeral | nested | array => cases kept

theorem Shows.reencoded {value : AnnotationValue} {element element' : RawElement}
    (kept : element.kept pool = some value) (shows : Shows pool' value element') :
    ReencodedElement pool pool' element element' := by
  obtain ⟨kind, index, entry, rfl, found, isValue⟩ := element.kept_some pool value kept
  obtain ⟨index', rfl, found'⟩ := shows
  rw [written_eq kind entry value isValue] at found' ⊢
  exact ⟨kind, entry, index, index', rfl, found, rfl, found'⟩

theorem forall₂_filter {α β γ : Type} (keep : α → Option β) (relates : β → γ → Prop) (items : List α)
    (others : List γ) (each : List.Forall₂ relates (items.filterMap keep) others) :
    List.Forall₂ (fun item other => ∃ value, keep item = some value ∧ relates value other)
      (items.filter fun item => (keep item).isSome) others := by
  induction items generalizing others with
  | nil =>
      cases each
      exact .nil
  | cons item items ih =>
      cases isKept : keep item with
      | none =>
          rw [List.filterMap_cons_none isKept] at each
          rw [List.filter_cons_of_neg (by rw [isKept]; exact Bool.false_ne_true)]
          exact ih others each
      | some value =>
          rw [List.filterMap_cons_some isKept] at each
          rw [List.filter_cons_of_pos (by rw [isKept]; rfl)]
          cases each with
          | cons first rest => exact .cons ⟨value, isKept, first⟩ (ih _ rest)

theorem ShowsRecord.reencoded {a a' : AnnotationRecord} (legible : a.Legible pool)
    (shows : ShowsRecord pool' (a.kept pool) a') : ReencodedRecord pool pool' a a' := by
  refine ⟨⟨_, legible.described, shows.described⟩, ?_⟩
  have each := forall₂_filter _ _ _ _ shows.pairs
  simp only [Option.isSome_map] at each
  have named : ∀ pair ∈ a.pairs.filter fun pair => (pair.2.kept pool).isSome,
      pool.utf8 pair.1 = .ok (pool.textAt pair.1) :=
    fun pair member => legible.named pair (List.mem_of_mem_filter member)
  refine ((List.forall₂_and_left _ _).mpr ⟨named, each⟩).imp ?_
  rintro pair pair' ⟨isName, value, isValue, shown⟩
  obtain ⟨kept, isKept, rfl⟩ := Option.map_eq_some_iff.mp isValue
  exact ⟨⟨_, isName, shown.named⟩, shown.shows.reencoded pool pool' isKept⟩

end Rewriting

-- Annotations that were read are written, where there is room for their texts and numbers, as the
-- annotations they were read from, less what is not kept. Each kept value has the letter and the entry
-- that `reencoded` says, which are those it was read with just when they last, and the same annotations
-- are read again.
theorem annotations_reencoded (pool : Pool) (body : List UInt8) (annotations : List Annotation)
    (read : parseAnnotations pool body = .ok annotations) (filled : annotations ≠ []) :
    (∀ b : PoolBuilder, (∀ a ∈ annotations, ShortTexts a) → b.next + attributeSlots annotations ≤ 65535 →
      ∃ attributes b', annotationAttribute annotations b = .ok (attributes, b')) ∧
    (∃ raws rest, body = annotationsBytes raws ++ rest ∧ raws.map (·.kept pool) = annotations ∧
      ∀ b b' b'' attributes, b.Valid → annotationAttribute annotations b = .ok (attributes, b') →
        PoolBuilder.Grows b' b'' →
        ∃ index raws', attributes = [(index, annotationsBytes raws')] ∧
          b''.pool.utf8 index = .ok "RuntimeVisibleAnnotations" ∧
          List.Forall₂ (ReencodedRecord pool b''.pool) raws raws' ∧
          parseAnnotations b''.pool (annotationsBytes raws') = .ok annotations) ∧
    ∀ kind entry, (ElementKind.value? kind entry).isSome →
      (kind.reencoded entry = (kind, entry) ↔ kind.Lasts entry) := by
  refine ⟨?_, ?_, ?_⟩
  · intro b short room
    obtain ⟨attributes, b', done, _⟩ := affords_annotations annotations short b room
    exact ⟨attributes, b', done⟩
  · obtain ⟨raws, rest, isBody, few, legible, kept⟩ := parse_annotations_ok pool body annotations read
    have isLength : raws.length = annotations.length := by rw [kept, List.length_map]
    have fewValues : ∀ a ∈ annotations, a.values.length ≤ 65535 := by
      rw [kept]
      refine List.forall_mem_map.mpr fun raw member => ?_
      exact Nat.le_trans (List.length_filterMap_le _ _) (legible raw member).few
    refine ⟨raws, rest, isBody, kept.symm, ?_⟩
    intro b b' b'' attributes valid done grown
    obtain ⟨index, raws', rfl, isName, shown⟩ :=
      (keeps_shown_annotations annotations filled).promises b b' attributes valid done b'' grown
    refine ⟨index, raws', rfl, isName, ?_, ?_⟩
    · rw [kept, List.forall₂_map_left_iff] at shown
      exact ((List.forall₂_and_left _ _).mpr ⟨legible, shown⟩).imp fun _ _ both =>
        both.2.reencoded pool b''.pool both.1
    · have again := parse_annotations_shown b''.pool annotations raws' (isLength ▸ few) fewValues shown []
      rwa [List.append_nil] at again
  · intro kind entry isSome
    obtain ⟨value, kept⟩ := Option.isSome_iff_exists.mp isSome
    exact reencoded_eq_iff kind entry value kept

def ornateRead : Annotation := ⟨"LA;", [("x", .int 120), ("x", .text "LA;")]⟩

-- What is written for the annotation above.
def ornateWritten : AnnotationRecord := ⟨1, [(2, .constant .int 3), (2, .constant .text 1)]⟩

theorem annotations_reencoded_ornate :
    parseAnnotations ornatePool (annotationsBytes [ornate]) = .ok [ornateRead] ∧ [ornateRead] ≠ [] ∧
    PoolBuilder.Valid {} ∧ ∃ b', annotationAttribute [ornateRead] {} = .ok ([(4, annotationsBytes [ornateWritten])], b') ∧
      parseAnnotations b'.pool (annotationsBytes [ornateWritten]) = .ok [ornateRead] := by
  have read : parseAnnotations ornatePool (annotationsBytes [ornate]) = .ok [ornateRead] := by decide
  obtain ⟨writes, ⟨_, _, _, _, again⟩, _⟩ :=
    annotations_reencoded ornatePool (annotationsBytes [ornate]) [ornateRead] read (by decide)
  have short : ∀ a ∈ [ornateRead], ShortTexts a := by
    intro a member
    cases List.mem_singleton.mp member
    have pairs : ∀ pair ∈ ornateRead.values, pair = ("x", .int 120) ∨ pair = ("x", .text "LA;") := by
      simp [ornateRead]
    refine ⟨by unfold ShortText; decide, ?_, ?_⟩
    · intro pair member
      rcases pairs pair member with rfl | rfl <;> unfold ShortText <;> decide
    · rintro pair member content isText
      rcases pairs pair member with rfl | rfl <;> cases isText
      unfold ShortText
      decide
  obtain ⟨attributes, b', done⟩ := writes {} short (by decide)
  obtain ⟨index, raws', isAttributes, _, _, reread⟩ :=
    again {} b' b' attributes PoolBuilder.valid_empty done (.refl b')
  have bytes : Prod.fst <$> annotationAttribute [ornateRead] {} = .ok [(4, annotationsBytes [ornateWritten])] := by
    rfl
  rw [done] at bytes
  have isWritten : attributes = [(4, annotationsBytes [ornateWritten])] := Except.ok.inj bytes
  have same := congrArg Prod.snd (List.singleton_inj.mp (isWritten.symm.trans isAttributes))
  dsimp only at same
  rw [isWritten] at done
  rw [← same] at reread
  exact ⟨read, by decide, PoolBuilder.valid_empty, b', done, reread⟩

-- A character comes back as a whole number, and a class as a text.
theorem ornate_letters_lost :
    parseAnnotations ornatePool (annotationsBytes [ornate]) = .ok [ornateRead] ∧
    Prod.fst <$> annotationAttribute [ornateRead] {} = .ok [(4, annotationsBytes [ornateWritten])] ∧
    (ornate.pairs.filter fun pair => (pair.2.kept ornatePool).isSome).map (·.2.letter) = ['C', 'c'] ∧
    ornateWritten.pairs.map (·.2.letter) = ['I', 's'] := by
  exact ⟨by decide, rfl, by decide, by decide⟩

end ClassFile

end JvmEdit
