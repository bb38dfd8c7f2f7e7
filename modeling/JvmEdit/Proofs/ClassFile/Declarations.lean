import JvmEdit.Proofs.ClassFile.CodeAttribute
import Mathlib.Algebra.GroupWithZero.Nat
set_option autoImplicit false

namespace JvmEdit

-- The writer only ever enters more items, and what it answers holds from then on.
structure Keeps {α : Type} (e : Encoder α) (holds : Pool → α → Prop) : Prop where
  growing : Growing e
  promises : Promises e holds

namespace Keeps

variable {α β : Type}

theorem pure (value : α) : Keeps (Pure.pure value) fun _ result => result = value where
  growing := .pure value
  promises := by
    intro b b' result _ done b'' _
    cases done
    rfl

theorem lift (result : Except EncodeError α) :
    Keeps (liftM result : Encoder α) fun _ value => result = .ok value where
  growing := .lift result
  promises := by
    intro b b' value _ done b'' _
    exact (encoder_lift result b b' value done).1

theorem imp {e : Encoder α} {holds holds' : Pool → α → Prop} (keeps : Keeps e holds)
    (implies : ∀ pool value, holds pool value → holds' pool value) : Keeps e holds' :=
  ⟨keeps.growing, fun b b' value valid done b'' grown =>
    implies _ _ (keeps.promises b b' value valid done b'' grown)⟩

theorem bind {x : Encoder α} {f : α → Encoder β} {first : Pool → α → Prop}
    {second : α → Pool → β → Prop} (head : Keeps x first) (tail : ∀ a, Keeps (f a) (second a)) :
    Keeps (x >>= f) fun pool result => ∃ a, first pool a ∧ second a pool result where
  growing := head.growing.bind fun a => (tail a).growing
  promises := by
    intro b b' result valid done b'' grown
    obtain ⟨a, mid, ran, later⟩ := state_t_bind x f b b' result done
    have grownHead := head.growing b mid a ran
    have grownTail := (tail a).growing mid b' result later
    exact ⟨a, head.promises b mid a valid ran b'' (grownTail.trans grown),
      (tail a).promises mid b' result (grownHead.valid valid) later b'' grown⟩

theorem all {e : Encoder α} {holds : Nat → Pool → α → Prop} (keeps : ∀ n, Keeps e (holds n)) :
    Keeps e fun pool value => ∀ n, holds n pool value :=
  ⟨(keeps 0).growing, fun b b' value valid done b'' grown n =>
    (keeps n).promises b b' value valid done b'' grown⟩

theorem last {x : Encoder α} {holds : Pool → α → Prop} (keeps : Keeps x holds) (f : α → β) :
    Keeps (x >>= fun a => Pure.pure (f a)) fun pool result => ∃ a, holds pool a ∧ result = f a :=
  keeps.bind fun a => .pure (f a)

theorem map_m {f : α → Encoder β} {holds : α → Pool → β → Prop} (items : List α)
    (keeps : ∀ a ∈ items, Keeps (f a) (holds a)) :
    Keeps (items.mapM f) fun pool results =>
      List.Forall₂ (fun item result => holds item pool result) items results := by
  induction items with
  | nil =>
      refine (Keeps.pure []).imp ?_
      rintro pool results rfl
      exact .nil
  | cons item items ih =>
      have first := keeps item List.mem_cons_self
      have rest := ih fun a member => keeps a (List.mem_cons_of_mem _ member)
      rw [List.mapM_cons]
      refine (first.bind fun result => rest.last (result :: ·)).imp ?_
      rintro pool results ⟨result, held, later, heldLater, rfl⟩
      exact .cons held heldLater

end Keeps

namespace ClassFile

variable {α β : Type}

-- The bytes, of that length, are read as the value.
def Encodes (reader : Pool → Reader α) (value : α) (length : Nat) (pool : Pool)
    (bytes : List UInt8) : Prop :=
  Reader.Reads (reader pool) bytes value ∧ bytes.length = length

theorem keeps_found (request : Encoder UInt16) (get : Pool → UInt16 → Except DecodeError α) (value : α)
    (growing : Growing request) (answers : PoolBuilder.Answers request get value) :
    Keeps (indexBytes request) fun pool bytes =>
      ∃ index, bytes = Bytes.u16 index ∧ get pool index = .ok value :=
  ⟨growing_index_bytes request growing, promises_index_bytes request get value answers⟩

theorem keeps_index (request : Encoder UInt16) (get : Pool → UInt16 → Except DecodeError α) (value : α)
    (growing : Growing request) (answers : PoolBuilder.Answers request get value) :
    Keeps (indexBytes request) (Encodes (fun pool => do
      let index ← Reader.u16
      get pool index) value 2) := by
  refine (keeps_found request get value growing answers).imp ?_
  rintro pool bytes ⟨index, rfl, found⟩
  exact ⟨(Reader.reads_u16 index).last (Reader.reads_lift _ _ found), rfl⟩

theorem keeps_text (text : String) :
    Keeps (indexBytes (PoolBuilder.utf8 text)) (Encodes readUtf8 text 2) :=
  keeps_index _ _ text (PoolBuilder.growing_utf8 text) (PoolBuilder.answers_utf8 text)

theorem keeps_class_name (name : String) :
    Keeps (indexBytes (PoolBuilder.className name)) (Encodes readClassName name 2) :=
  keeps_index _ _ name (PoolBuilder.growing_class_name name) (PoolBuilder.answers_class_name name)

theorem keeps_constant (value : Constant) (direct : value.Direct) :
    Keeps (indexBytes (PoolBuilder.constant value)) (Encodes readConstant value 2) :=
  keeps_index _ _ value (PoolBuilder.growing_constant value) (PoolBuilder.answers_constant value direct)

theorem keeps_rows (items : List α) (write : α → Encoder (List UInt8))
    (holds : α → Pool → List UInt8 → Prop)
    (keeps : ∀ a ∈ items, Keeps (write a) (holds a)) :
    Keeps (listBytes items write) fun pool bytes => ∃ rows,
      List.Forall₂ (fun item row => holds item pool row) items rows ∧
        bytes = Bytes.count16 rows.length ++ rows.flatten := by
  refine ((Keeps.map_m items keeps).last _).imp ?_
  rintro pool bytes ⟨rows, each, rfl⟩
  exact ⟨rows, each, by rw [each.length_eq]⟩

theorem length_flatten_rows (size : α → Nat) (items : List α) (rows : List (List UInt8))
    (each : List.Forall₂ (fun item row => List.length row = size item) items rows) :
    rows.flatten.length = (items.map size).sum := by
  induction each with
  | nil => rfl
  | cons first _ ih => rw [List.flatten_cons, List.length_append, first, ih, List.map_cons, List.sum_cons]

theorem keeps_list (items : List α) (write : α → Encoder (List UInt8)) (reader : Pool → Reader β)
    (value : α → β) (size : α → Nat) (few : items.length ≤ 65535)
    (keeps : ∀ a ∈ items, Keeps (write a) (Encodes reader (value a) (size a))) :
    Keeps (listBytes items write) (Encodes (fun pool => Reader.listOf (reader pool))
      (items.map value) (2 + (items.map size).sum)) := by
  refine (keeps_rows items write _ keeps).imp ?_
  rintro pool bytes ⟨rows, each, rfl⟩
  have read : List.Forall₂ (fun item row => Reader.Reads (reader pool) row (value item)) items rows :=
    each.imp fun _ _ both => both.1
  refine ⟨reads_rows (reader pool) _ rows (List.forall₂_map_left_iff.mpr read)
    (each.length_eq ▸ few), ?_⟩
  rw [List.length_append, Bytes.length_count16,
    length_flatten_rows size items rows (each.imp fun _ _ both => both.2)]

-- One attribute, its body written before its name is asked for.
def single (name : String) (body : Encoder (List UInt8)) : Encoder (List Attribute) := do
  let body ← body
  let written ← named name body
  return [written]

-- The attribute of that name, when there is a value for it.
def Stored (name : String) (parser : Pool → List UInt8 → Except DecodeError α) (value : Option α)
    (pool : Pool) (attributes : List Attribute) : Prop :=
  match value with
  | none => attributes = []
  | some v => ∃ index body, attributes = [(index, body)] ∧ pool.utf8 index = .ok name ∧
      body.length < 2 ^ 32 ∧ parser pool body = .ok v

theorem keeps_single (name : String) (body : Encoder (List UInt8)) (holds : Pool → List UInt8 → Prop)
    (keeps : Keeps body holds) : Keeps (single name body) fun pool attributes =>
      ∃ index body, attributes = [(index, body)] ∧ pool.utf8 index = .ok name ∧ holds pool body := by
  have titled : ∀ body, Keeps (named name body) fun pool attr => Holds pool (name, body) attr :=
    fun body => ⟨growing_named name body, promises_named name body⟩
  refine (keeps.bind fun body => (titled body).last ([·])).imp ?_
  rintro pool attributes ⟨body, held, ⟨index, body'⟩, ⟨isName, rfl⟩, rfl⟩
  exact ⟨index, _, rfl, isName, held⟩

theorem keeps_stored (name : String) (reader : Pool → Reader α) (value : α) (length : Nat)
    (body : Encoder (List UInt8)) (short : length < 2 ^ 32)
    (keeps : Keeps body (Encodes reader value length)) :
    Keeps (single name body) (Stored name (fun pool => parse (reader pool)) (some value)) := by
  refine (keeps_single name body _ keeps).imp ?_
  rintro pool attributes ⟨index, body, isAttribute, isName, reads, isLength⟩
  exact ⟨index, body, isAttribute, isName, isLength ▸ short, parse_of_reads _ _ _ reads⟩

theorem keeps_none (name : String) (parser : Pool → List UInt8 → Except DecodeError α) :
    Keeps (pure []) (Stored name parser none) :=
  (Keeps.pure []).imp fun _ _ isEmpty => isEmpty

section Takes

variable {σ : Type} (pool : Pool) (use : σ → String → List UInt8 → Except DecodeError σ)

-- So many attributes at most, one after the other, lead from one state to the other.
def Takes (count : Nat) (attributes : List Attribute) (state final : σ) : Prop :=
  attributes.length ≤ count ∧ ∃ tables, List.Forall₂ (Holds pool) tables attributes ∧
    (∀ table ∈ tables, table.2.length < 2 ^ 32) ∧
    tables.foldlM (fun state table => use state table.1 table.2) state = .ok final

variable {pool use}

theorem Takes.append {count count' : Nat} {attributes more : List Attribute} {state mid final : σ}
    (first : Takes pool use count attributes state mid) (second : Takes pool use count' more mid final) :
    Takes pool use (count + count') (attributes ++ more) state final := by
  obtain ⟨few, tables, holds, small, folded⟩ := first
  obtain ⟨few', tables', holds', small', folded'⟩ := second
  refine ⟨?_, tables ++ tables', List.rel_append holds holds', ?_, ?_⟩
  · rw [List.length_append]
    exact Nat.add_le_add few few'
  · intro table member
    exact (List.mem_append.mp member).elim (small table) (small' table)
  · rw [List.foldlM_append, folded]
    exact folded'

variable (use) in
theorem takes_stored {name : String} {parser : Pool → List UInt8 → Except DecodeError α}
    {value : Option α} {attributes : List Attribute} (set : α → σ → σ)
    (stored : Stored name parser value pool attributes)
    (arm : ∀ state body, use state name body = parser pool body >>= fun v => pure (set v state))
    (state : σ) : Takes pool use 1 attributes state (value.elim state (set · state)) := by
  cases value with
  | none =>
      cases stored
      exact ⟨Nat.zero_le _, [], .nil, fun _ member => (List.not_mem_nil member).elim, rfl⟩
  | some v =>
      obtain ⟨index, body, rfl, isName, short, parsed⟩ := stored
      refine ⟨Nat.le_refl _, [(name, body)], .cons ⟨isName, rfl⟩ .nil, ?_, ?_⟩
      · intro table member
        cases List.mem_singleton.mp member
        exact short
      · rw [List.foldlM_cons, arm, parsed]
        rfl

theorem reads_takes {count : Nat} {attributes : List Attribute} {state final : σ}
    (takes : Takes pool use count attributes state final) (few : count ≤ 65535) :
    Reader.Reads (readAttributes pool state use) (attributeBytes attributes) final := by
  obtain ⟨bound, tables, holds, small, folded⟩ := takes
  exact reads_attributes pool use tables attributes holds small (Nat.le_trans bound few) state final folded

end Takes

end ClassFile

namespace ClassFile

section Annotations

theorem reads_integral (pool : Pool) (index : UInt16) (value : Constant) (number : Int64)
    (found : pool.constant index = .ok value)
    (integral : (∃ small : Int32, value = .int small ∧ small.toInt64 = number) ∨ value = .long number) :
    Reader.Reads (readIntegral pool) (Bytes.u16 index) number := by
  unfold readIntegral
  refine (Reader.reads_u16 index).last ((Reader.reads_lift _ _ found).last ?_)
  rcases integral with ⟨small, rfl, rfl⟩ | rfl
  · exact Reader.reads_pure _
  · exact Reader.reads_pure _

theorem keeps_integral (value : Constant) (number : Int64)
    (integral : (∃ small : Int32, value = .int small ∧ small.toInt64 = number) ∨ value = .long number) :
    Keeps (indexBytes (PoolBuilder.constant value)) (Encodes readIntegral number 2) := by
  have direct : value.Direct := by
    rcases integral with ⟨small, rfl, _⟩ | rfl <;> trivial
  refine (keeps_found _ _ value (PoolBuilder.growing_constant value)
    (PoolBuilder.answers_constant value direct)).imp ?_
  rintro pool bytes ⟨index, rfl, found⟩
  exact ⟨reads_integral pool index value number found integral, rfl⟩

theorem keeps_tagged {α : Type} (kind : Char) (request : Encoder (List UInt8))
    (reader : Pool → Reader α) (value : α) (element : AnnotationValue) (fuel : Nat)
    (keeps : Keeps request (Encodes reader value 2))
    (arm : ∀ pool index, Reader.Reads (reader pool) index value →
      Reader.Reads (readElement pool (fuel + 1)) (tag kind :: index) (some element)) :
    Keeps (do
      let index ← request
      return tag kind :: index)
      (Encodes (fun pool => readElement pool (fuel + 1)) (some element) 3) := by
  refine (keeps.last (tag kind :: ·)).imp ?_
  rintro pool bytes ⟨index, ⟨reads, width⟩, rfl⟩
  exact ⟨arm pool index reads, by rw [List.length_cons, width]⟩

theorem keeps_element (value : AnnotationValue) (fuel : Nat) :
    Keeps (elementBytes value) (Encodes (fun pool => readElement pool (fuel + 1)) (some value) 3) := by
  cases value with
  | int value =>
      unfold elementBytes
      dsimp only
      by_cases small : value.toInt32.toInt64 = value
      · rw [if_pos small]
        refine keeps_tagged 'I' _ _ _ _ fuel (keeps_integral _ value (.inl ⟨_, rfl, small⟩)) ?_
        intro pool index reads
        rw [readElement]
        exact (Reader.reads_u8 (tag 'I')).bind ((reads.map _).map _)
      · rw [if_neg small]
        refine keeps_tagged 'J' _ _ _ _ fuel (keeps_integral _ value (.inr rfl)) ?_
        intro pool index reads
        rw [readElement]
        exact (Reader.reads_u8 (tag 'J')).bind ((reads.map _).map _)
  | bool value =>
      have number : decide ((if value then 1 else 0 : Int32).toInt64 ≠ 0) = value := by
        cases value <;> rfl
      refine keeps_tagged 'Z' _ _ _ _ fuel (keeps_integral _ _ (.inl ⟨_, rfl, rfl⟩)) ?_
      intro pool index reads
      have read := reads.map fun n => some (AnnotationValue.bool (n ≠ 0))
      rw [number] at read
      rw [readElement]
      exact (Reader.reads_u8 (tag 'Z')).bind read
  | text value =>
      refine keeps_tagged 's' _ _ _ _ fuel (keeps_text value) ?_
      intro pool index reads
      rw [readElement]
      exact (Reader.reads_u8 (tag 's')).bind ((reads.map _).map _)

def pairBytes (pair : String × AnnotationValue) : Encoder (List UInt8) := do
  let name ← indexBytes (PoolBuilder.utf8 pair.1)
  let value ← elementBytes pair.2
  return name ++ value

def readPair (pool : Pool) (fuel : Nat) : Reader (String × Option AnnotationValue) := do
  let name ← readUtf8 pool
  let value ← readElement pool fuel
  return (name, value)

theorem annotation_bytes_eq (a : Annotation) : annotationBytes a = (do
    let descriptor ← indexBytes (PoolBuilder.utf8 a.descriptor)
    let values ← listBytes a.values pairBytes
    pure (descriptor ++ values)) := rfl

theorem read_annotation_body_eq (pool : Pool) (fuel : Nat) : readAnnotationBody pool (fuel + 1) = (do
    let descriptor ← readUtf8 pool
    let pairs ← Reader.listOf (readPair pool fuel)
    pure ⟨descriptor, pairs.filterMap fun pair => pair.2.map (pair.1, ·)⟩) := by
  rw [readAnnotationBody]
  rfl

theorem keeps_pair (pair : String × AnnotationValue) (fuel : Nat) : Keeps (pairBytes pair)
    (Encodes (fun pool => readPair pool (fuel + 1)) (pair.1, some pair.2) 5) := by
  refine ((keeps_text pair.1).bind fun name => (keeps_element pair.2 fuel).last (name ++ ·)).imp ?_
  rintro pool bytes ⟨name, ⟨named, width⟩, value, ⟨valued, width'⟩, rfl⟩
  refine ⟨named.bind (valued.last (Reader.reads_pure _)), ?_⟩
  rw [List.length_append, width, width']

-- The bytes that an annotation takes, and the bytes that a list of them takes.
def annotationLength (a : Annotation) : Nat := 4 + 5 * a.values.length

def annotationsLength (annotations : List Annotation) : Nat :=
  2 + (annotations.map annotationLength).sum

-- The counts and the length of the attribute that lists them can be written.
structure AnnotationsFit (annotations : List Annotation) : Prop where
  count : annotations.length ≤ 65535
  values : ∀ a ∈ annotations, a.values.length ≤ 65535
  length : annotationsLength annotations < 2 ^ 32

theorem keeps_annotation (a : Annotation) (fuel : Nat) (few : a.values.length ≤ 65535) :
    Keeps (annotationBytes a)
      (Encodes (fun pool => readAnnotationBody pool (fuel + 2)) a (annotationLength a)) := by
  have values := keeps_list a.values pairBytes (fun pool => readPair pool (fuel + 1))
    (fun pair => (pair.1, some pair.2)) (fun _ => 5) few fun pair _ => keeps_pair pair fuel
  rw [annotation_bytes_eq]
  refine ((keeps_text a.descriptor).bind fun descriptor => values.last (descriptor ++ ·)).imp ?_
  rintro pool bytes ⟨descriptor, ⟨described, width⟩, rows, ⟨listed, width'⟩, rfl⟩
  constructor
  · dsimp only
    rw [read_annotation_body_eq]
    refine described.bind (listed.last ?_)
    have kept : (a.values.map fun pair => (pair.1, some pair.2)).filterMap
        (fun pair => pair.2.map (pair.1, ·)) = a.values := by
      rw [List.filterMap_map]
      exact List.filterMap_some
    rw [kept]
    exact Reader.reads_pure _
  · rw [List.length_append, width, width', List.map_const', List.sum_replicate_nat, annotationLength]
    omega

-- A list for which nothing is written when it is empty.
def listed {α : Type} (items : List α) : Option (List α) := if items.isEmpty then none else some items

theorem keeps_listed {α : Type} (items : List α) (name : String)
    (parser : Pool → List UInt8 → Except DecodeError (List α)) (write : Encoder (List Attribute))
    (keeps : Keeps write (Stored name parser (some items))) :
    Keeps (if items.isEmpty then pure [] else write) (Stored name parser (listed items)) := by
  unfold listed
  by_cases none : items.isEmpty = true
  · rw [if_pos none, if_pos none]
    exact keeps_none name parser
  · rw [if_neg none, if_neg none]
    exact keeps

theorem annotation_attribute_eq (annotations : List Annotation) : annotationAttribute annotations =
    if annotations.isEmpty then pure []
    else single "RuntimeVisibleAnnotations" (listBytes annotations annotationBytes) := rfl

theorem keeps_annotations (annotations : List Annotation) (fit : AnnotationsFit annotations) :
    Keeps (annotationAttribute annotations)
      (Stored "RuntimeVisibleAnnotations" parseAnnotations (listed annotations)) := by
  rw [annotation_attribute_eq]
  refine keeps_listed _ _ _ _ ?_
  -- how deep the values may nest is known from the body, so the list is read at every depth
  have every : ∀ fuel, Keeps (listBytes annotations annotationBytes)
      (Encodes (fun pool => Reader.listOf (readAnnotationBody pool (fuel + 2))) annotations
        (annotationsLength annotations)) := by
    intro fuel
    have each := keeps_list annotations annotationBytes (fun pool => readAnnotationBody pool (fuel + 2))
      id annotationLength fit.count fun a member => keeps_annotation a fuel (fit.values a member)
    rwa [List.map_id] at each
  refine (keeps_single _ _ _ (Keeps.all every)).imp ?_
  rintro pool attributes ⟨index, body, isAttribute, isName, encodes⟩
  obtain ⟨reads, isLength⟩ := encodes (2 * body.length)
  exact ⟨index, body, isAttribute, isName, isLength ▸ fit.length, parse_of_reads _ _ _ reads⟩

end Annotations

theorem keeps_signature (signature : Option String) : Keeps (signatureAttribute signature)
    (Stored "Signature" (fun pool => parse (readUtf8 pool)) signature) := by
  cases signature with
  | none => exact keeps_none _ _
  | some signature =>
      exact keeps_stored "Signature" readUtf8 signature 2 _ (by decide) (keeps_text signature)

theorem keeps_names (names : List String) (few : names.length ≤ 65535) :
    Keeps (listBytes names fun name => indexBytes (PoolBuilder.className name))
      (Encodes (fun pool => Reader.listOf (readClassName pool)) names (2 + names.length * 2)) := by
  have each := keeps_list names (fun name => indexBytes (PoolBuilder.className name)) readClassName id
    (fun _ => 2) few fun name _ => keeps_class_name name
  rwa [List.map_id, List.map_const', List.sum_replicate_nat] at each

section Bootstrap

def bootstrapLength (methods : List BootstrapMethod) : Nat :=
  2 + (methods.map fun b => 4 + 2 * b.arguments.length).sum

structure BootstrapFit (methods : List BootstrapMethod) : Prop where
  count : methods.length ≤ 65535
  arguments : ∀ b ∈ methods, b.arguments.length ≤ 65535
  direct : ∀ b ∈ methods, b.handle.Direct ∧ ∀ c ∈ b.arguments, c.Direct
  length : bootstrapLength methods < 2 ^ 32

theorem keeps_bootstrap (b : BootstrapMethod) (few : b.arguments.length ≤ 65535)
    (handle : b.handle.Direct) (arguments : ∀ c ∈ b.arguments, c.Direct) :
    Keeps (bootstrapBytes b) (Encodes readBootstrapMethod b (4 + 2 * b.arguments.length)) := by
  have each := keeps_list b.arguments (fun c => indexBytes (PoolBuilder.constant c)) readConstant id
    (fun _ => 2) few fun c member => keeps_constant c (arguments c member)
  rw [List.map_id] at each
  refine ((keeps_constant b.handle handle).bind fun row => each.last (row ++ ·)).imp ?_
  rintro pool bytes ⟨row, ⟨isHandle, width⟩, rows, ⟨areArguments, width'⟩, rfl⟩
  refine ⟨isHandle.bind (areArguments.last (Reader.reads_pure _)), ?_⟩
  rw [List.length_append, width, width', List.map_const', List.sum_replicate_nat]
  omega

theorem bootstrap_attribute_eq (methods : List BootstrapMethod) : bootstrapAttribute methods =
    if methods.isEmpty then pure []
    else single "BootstrapMethods" (listBytes methods bootstrapBytes) := rfl

theorem keeps_bootstrap_list (methods : List BootstrapMethod) (count : methods.length ≤ 65535)
    (arguments : ∀ b ∈ methods, b.arguments.length ≤ 65535)
    (direct : ∀ b ∈ methods, b.handle.Direct ∧ ∀ c ∈ b.arguments, c.Direct) :
    Keeps (listBytes methods bootstrapBytes)
      (Encodes (fun pool => Reader.listOf (readBootstrapMethod pool)) methods (bootstrapLength methods)) := by
  have each := keeps_list methods bootstrapBytes readBootstrapMethod id _ count fun b member =>
    keeps_bootstrap b (arguments b member) (direct b member).1 (direct b member).2
  rwa [List.map_id] at each

theorem keeps_bootstraps (methods : List BootstrapMethod) (fit : BootstrapFit methods) :
    Keeps (bootstrapAttribute methods) (Stored "BootstrapMethods"
      (fun pool => parse (Reader.listOf (readBootstrapMethod pool))) (listed methods)) := by
  have each := keeps_bootstrap_list methods fit.count fit.arguments fit.direct
  rw [bootstrap_attribute_eq]
  exact keeps_listed _ _ _ _ (keeps_stored _ _ _ _ _ fit.length each)

end Bootstrap

section Fields

def fieldDecl (f : Field) : FieldDecl :=
  ⟨f.name, f.descriptor, f.signature, f.access, f.value, f.annotations⟩

structure FieldFits (f : Field) : Prop where
  value : ∀ value, f.value = some value → value.Direct
  annotations : AnnotationsFit f.annotations

def valueAttribute : Option Constant → Encoder (List Attribute)
  | none => pure []
  | some value => single "ConstantValue" (indexBytes (PoolBuilder.constant value))

theorem field_bytes_eq (f : Field) : fieldBytes f = (do
    let name ← indexBytes (PoolBuilder.utf8 f.name)
    let descriptor ← indexBytes (PoolBuilder.utf8 f.descriptor)
    let value ← valueAttribute f.value
    let signature ← signatureAttribute f.signature
    let annotations ← annotationAttribute f.annotations
    pure (Bytes.u16 f.access.bits ++ name ++ descriptor ++
      attributeBytes (value ++ signature ++ annotations))) := by
  unfold fieldBytes valueAttribute single
  cases f.value <;> simp only [bind_assoc, pure_bind]

theorem keeps_value (value : Option Constant) (direct : ∀ v, value = some v → v.Direct) :
    Keeps (valueAttribute value)
      (Stored "ConstantValue" (fun pool => parse (readConstant pool)) value) := by
  cases value with
  | none => exact keeps_none _ _
  | some v =>
      have keeps := keeps_constant v (direct v rfl)
      exact keeps_stored "ConstantValue" readConstant v 2 _ (by decide) keeps

def takeFieldAttribute (pool : Pool) (field : FieldDecl) (name : String) (body : List UInt8) :
    Except DecodeError FieldDecl :=
  match name with
  | "ConstantValue" => do
      let value ← parse (readConstant pool) body
      return { field with value := some value }
  | "Signature" => do
      let signature ← parse (readUtf8 pool) body
      return { field with signature := some signature }
  | "RuntimeVisibleAnnotations" => do
      let annotations ← parseAnnotations pool body
      return { field with annotations }
  | _ => return field

theorem read_field_eq (pool : Pool) : readField pool = (do
    let access ← Reader.u16
    let name ← readUtf8 pool
    let descriptor ← readUtf8 pool
    readAttributes pool ⟨name, descriptor, none, ⟨access⟩, none, []⟩ (takeFieldAttribute pool)) := rfl

theorem takes_field (f : Field) (pool : Pool) (value signature annotations : List Attribute)
    (valued : Stored "ConstantValue" (fun pool => parse (readConstant pool)) f.value pool value)
    (signed : Stored "Signature" (fun pool => parse (readUtf8 pool)) f.signature pool signature)
    (annotated : Stored "RuntimeVisibleAnnotations" parseAnnotations (listed f.annotations) pool
      annotations) :
    Takes pool (takeFieldAttribute pool) 3 (value ++ signature ++ annotations)
      ⟨f.name, f.descriptor, none, f.access, none, []⟩ (fieldDecl f) := by
  have first := takes_stored (takeFieldAttribute pool)
    (fun v (field : FieldDecl) => { field with value := some v }) valued (fun _ _ => rfl)
  have second := takes_stored (takeFieldAttribute pool)
    (fun s (field : FieldDecl) => { field with signature := some s }) signed (fun _ _ => rfl)
  have third := takes_stored (takeFieldAttribute pool)
    (fun a (field : FieldDecl) => { field with annotations := a }) annotated (fun _ _ => rfl)
  have all := ((first ⟨f.name, f.descriptor, none, f.access, none, []⟩).append (second _)).append
    (third _)
  convert all using 1
  unfold fieldDecl listed
  cases f.value <;> cases f.signature <;> cases f.annotations <;> rfl

theorem keeps_field (f : Field) (fits : FieldFits f) : Keeps (fieldBytes f) fun pool bytes =>
    Reader.Reads (readField pool) bytes (fieldDecl f) := by
  rw [field_bytes_eq]
  refine ((keeps_text f.name).bind fun name => (keeps_text f.descriptor).bind fun descriptor =>
    (keeps_value f.value fits.value).bind fun value =>
      (keeps_signature f.signature).bind fun signature =>
        (keeps_annotations f.annotations fits.annotations).last _).imp ?_
  rintro pool bytes ⟨name, ⟨named, _⟩, descriptor, ⟨described, _⟩, value, valued, signature, signed,
    annotations, annotated, rfl⟩
  have attributes := reads_takes
    (takes_field f pool value signature annotations valued signed annotated) (by decide)
  rw [read_field_eq, List.append_assoc, List.append_assoc]
  exact (Reader.reads_u16 f.access.bits).bind (named.bind (described.bind attributes))

end Fields

end ClassFile

end JvmEdit
