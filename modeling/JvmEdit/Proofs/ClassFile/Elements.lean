import JvmEdit.Proofs.ClassFile.Declarations
set_option autoImplicit false

namespace JvmEdit

-- The text behind an index that leads to one.
def Pool.textAt (pool : Pool) (index : UInt16) : String := (pool.utf8 index).toOption.getD ""

theorem Pool.utf8_text_at (pool : Pool) (index : UInt16) (text : String) (found : pool.utf8 index = .ok text) :
    pool.utf8 index = .ok (pool.textAt index) := by
  rw [Pool.textAt, found]
  rfl

def PoolEntry.number? : PoolEntry → Option Int64
  | .integer number => some number.toInt64
  | .long number => some number
  | _ => none

namespace ClassFile

-- The kinds of value that are one index into the pool.
inductive ElementKind
  | byte
  | char
  | short
  | int
  | long
  | boolean
  | float
  | double
  | text
  | classInfo
  deriving DecidableEq, Repr

namespace ElementKind

def letter : ElementKind → Char
  | byte => 'B'
  | char => 'C'
  | short => 'S'
  | int => 'I'
  | long => 'J'
  | boolean => 'Z'
  | float => 'F'
  | double => 'D'
  | text => 's'
  | classInfo => 'c'

-- The entries that the index of such a value may lead to.
def Accepts : ElementKind → PoolEntry → Prop
  | byte, .integer _ | char, .integer _ | short, .integer _ | int, .integer _ => True
  | boolean, .integer _ => True
  | long, .long _ => True
  | float, .float _ => True
  | double, .double _ => True
  | text, .utf8 _ | classInfo, .utf8 _ => True
  | _, _ => False

-- What is kept of such a value, whichever of the two sizes its number has.
def value? : ElementKind → PoolEntry → Option AnnotationValue
  | byte, entry | char, entry | short, entry | int, entry | long, entry => entry.number?.map .int
  | boolean, entry => entry.number?.map fun number => .bool (number ≠ 0)
  | text, .utf8 content | classInfo, .utf8 content => some (.text content)
  | _, _ => none

end ElementKind

inductive RawElement
  | constant (kind : ElementKind) (index : UInt16)
  | enumeral (type name : UInt16)
  | nested (descriptor : UInt16) (pairs : List (UInt16 × RawElement))
  | array (values : List RawElement)

structure AnnotationRecord where
  descriptor : UInt16
  pairs : List (UInt16 × RawElement)

mutual

def RawElement.bytes : RawElement → List UInt8
  | .constant kind index => tag kind.letter :: Bytes.u16 index
  | .enumeral type name => tag 'e' :: (Bytes.u16 type ++ Bytes.u16 name)
  | .nested descriptor pairs =>
      tag '@' :: (Bytes.u16 descriptor ++ (Bytes.count16 pairs.length ++ pairsBytes pairs))
  | .array values => tag '[' :: (Bytes.count16 values.length ++ valuesBytes values)

def rawPairBytes : UInt16 × RawElement → List UInt8
  | (name, value) => Bytes.u16 name ++ value.bytes

def pairsBytes : List (UInt16 × RawElement) → List UInt8
  | [] => []
  | pair :: pairs => rawPairBytes pair ++ pairsBytes pairs

def valuesBytes : List RawElement → List UInt8
  | [] => []
  | value :: values => value.bytes ++ valuesBytes values

end

theorem pairs_bytes_eq (pairs : List (UInt16 × RawElement)) : pairsBytes pairs = pairs.flatMap rawPairBytes := by
  induction pairs with
  | nil => rfl
  | cons pair pairs ih => rw [pairsBytes, ih, List.flatMap_cons]

theorem values_bytes_eq (values : List RawElement) : valuesBytes values = values.flatMap RawElement.bytes := by
  induction values with
  | nil => rfl
  | cons value values ih => rw [valuesBytes, ih, List.flatMap_cons]

namespace RawElement

def letter : RawElement → Char
  | constant kind _ => kind.letter
  | enumeral _ _ => 'e'
  | nested _ _ => '@'
  | array _ => '['

-- Every index leads to an entry of the right kind, and every count can be written.
inductive Valid (pool : Pool) : RawElement → Prop
  | constant (kind : ElementKind) (index : UInt16) (entry : PoolEntry)
      (found : pool.get? index = some entry) (accepts : kind.Accepts entry) :
      Valid pool (.constant kind index)
  | enumeral (type name : UInt16) (typeText nameText : String)
      (typed : pool.utf8 type = .ok typeText) (named : pool.utf8 name = .ok nameText) : Valid pool (.enumeral type name)
  | nested (descriptor : UInt16) (pairs : List (UInt16 × RawElement)) (text : String)
      (described : pool.utf8 descriptor = .ok text) (few : pairs.length ≤ 65535)
      (named : ∀ pair ∈ pairs, ∃ name, pool.utf8 pair.1 = .ok name)
      (valid : ∀ pair ∈ pairs, Valid pool pair.2) : Valid pool (.nested descriptor pairs)
  | array (values : List RawElement) (few : values.length ≤ 65535)
      (valid : ∀ value ∈ values, Valid pool value) : Valid pool (.array values)

-- What is kept of a value that stands in a pair of an annotation.
def kept (pool : Pool) : RawElement → Option AnnotationValue
  | constant kind index => (pool.get? index).bind kind.value?
  | _ => none

end RawElement

namespace AnnotationRecord

def bytes (a : AnnotationRecord) : List UInt8 :=
  Bytes.u16 a.descriptor ++ (Bytes.count16 a.pairs.length ++ a.pairs.flatMap rawPairBytes)

def Valid (pool : Pool) (a : AnnotationRecord) : Prop := (RawElement.nested a.descriptor a.pairs).Valid pool

def kept (pool : Pool) (a : AnnotationRecord) : Annotation :=
  ⟨pool.textAt a.descriptor, a.pairs.filterMap fun pair =>
    (pair.2.kept pool).map (pool.textAt pair.1, ·)⟩

end AnnotationRecord

-- The letters of the values that are kept.
def keptLetters : List Char := ['B', 'C', 'I', 'S', 'J', 'Z', 's', 'c']

-- A body that lists annotations.
def annotationsBytes (annotations : List AnnotationRecord) : List UInt8 :=
  Bytes.count16 annotations.length ++ annotations.flatMap AnnotationRecord.bytes

section Reading

variable (pool : Pool) (fuel : Nat)

theorem reads_number (index : UInt16) (entry : PoolEntry) (number : Int64) (found : pool.get? index = some entry)
    (integral : entry.number? = some number) : Reader.Reads (readIntegral pool) (Bytes.u16 index) number := by
  cases entry with
  | integer small =>
      exact reads_integral pool index (.int small) number (by simp only [Pool.constant, found])
        (.inl ⟨small, rfl, Option.some.inj integral⟩)
  | long wide =>
      exact reads_integral pool index (.long wide) number (by simp only [Pool.constant, found])
        (.inr (congrArg Constant.long (Option.some.inj integral)))
  | _ => cases integral

theorem reads_content (index : UInt16) (content : String) (found : pool.get? index = some (.utf8 content)) :
    Reader.Reads (readUtf8 pool) (Bytes.u16 index) content :=
  reads_text pool index content (by simp only [Pool.utf8, found])

theorem reads_constant (kind : ElementKind) (index : UInt16) (entry : PoolEntry)
    (found : pool.get? index = some entry) (accepts : kind.Accepts entry) :
    Reader.Reads (readElement pool (fuel + 1)) (RawElement.constant kind index).bytes
      ((RawElement.constant kind index).kept pool) := by
  have kept : (RawElement.constant kind index).kept pool = kind.value? entry := by
    rw [RawElement.kept, found, Option.bind_some]
  rw [kept, RawElement.bytes, readElement]
  refine (Reader.reads_u8 (tag kind.letter)).bind ?_
  -- the letter picks the arm of the reader, the entry what the arm finds
  cases kind with
  | byte | char | short | int | long =>
      cases entry <;> cases accepts
      exact ((reads_number pool index _ _ found rfl).map _).map _
  | boolean =>
      cases entry <;> cases accepts
      exact (reads_number pool index _ _ found rfl).map fun number => some (AnnotationValue.bool (number ≠ 0))
  | float | double =>
      cases entry <;> cases accepts
      exact (Reader.reads_skip (Bytes.u16 index)).last (Reader.reads_pure none)
  | text | classInfo =>
      cases entry <;> cases accepts
      exact ((reads_content pool index _ found).map _).map _

theorem length_le_flat_map {α : Type} (items : List α) (write : α → List UInt8) (item : α)
    (member : item ∈ items) : (write item).length ≤ (items.flatMap write).length := by
  rw [List.flatMap_def]
  exact (List.sublist_flatten_of_mem (List.mem_map_of_mem member)).length_le

theorem length_value_le (pairs : List (UInt16 × RawElement)) (pair : UInt16 × RawElement)
    (member : pair ∈ pairs) : 2 + pair.2.bytes.length ≤ (pairs.flatMap rawPairBytes).length := by
  have part := length_le_flat_map pairs rawPairBytes pair member
  rwa [rawPairBytes, List.length_append, Bytes.length_u16] at part

theorem AnnotationRecord.length_bytes (a : AnnotationRecord) :
    a.bytes.length = 4 + (a.pairs.flatMap rawPairBytes).length := by
  rw [bytes, List.length_append, List.length_append, Bytes.length_u16, Bytes.length_count16, ← Nat.add_assoc]

theorem reads_annotation (a : AnnotationRecord) (valid : a.Valid pool)
    (values : ∀ pair ∈ a.pairs, Reader.Reads (readElement pool fuel) pair.2.bytes (pair.2.kept pool)) :
    Reader.Reads (readAnnotationBody pool (fuel + 1)) a.bytes (a.kept pool) := by
  cases valid with
  | nested _ _ text described few named _ =>
      have pairs : ∀ pair ∈ a.pairs, Reader.Reads (readPair pool fuel) (rawPairBytes pair)
          (pool.textAt pair.1, pair.2.kept pool) := by
        intro pair member
        obtain ⟨name, isName⟩ := named pair member
        have first := reads_text pool pair.1 _ (pool.utf8_text_at pair.1 name isName)
        rw [rawPairBytes]
        exact first.bind ((values pair member).last (Reader.reads_pure _))
      have listed := Reader.reads_list_of (readPair pool fuel) a.pairs rawPairBytes _ pairs few
      have title := reads_text pool a.descriptor _ (pool.utf8_text_at a.descriptor text described)
      rw [read_annotation_body_eq]
      refine title.bind (listed.last ?_)
      rw [List.filterMap_map]
      exact Reader.reads_pure _

theorem reads_element (value : RawElement) (valid : value.Valid pool) (enough : value.bytes.length ≤ fuel) :
    Reader.Reads (readElement pool fuel) value.bytes (value.kept pool) := by
  induction valid generalizing fuel with
  | constant kind index entry found accepts =>
      obtain ⟨rest, rfl⟩ : ∃ rest, fuel = rest + 1 := by
        simp only [RawElement.bytes, List.length_cons] at enough
        exact ⟨fuel - 1, by omega⟩
      exact reads_constant pool rest kind index entry found accepts
  | enumeral type name typeText nameText typed named =>
      obtain ⟨rest, rfl⟩ : ∃ rest, fuel = rest + 1 := by
        simp only [RawElement.bytes, List.length_cons] at enough
        exact ⟨fuel - 1, by omega⟩
      rw [RawElement.bytes, readElement]
      refine (Reader.reads_u8 (tag 'e')).bind ?_
      exact (Reader.reads_skip (Bytes.u16 type ++ Bytes.u16 name)).last (Reader.reads_pure none)
  | nested descriptor pairs text described few named valid ih =>
      let a : AnnotationRecord := ⟨descriptor, pairs⟩
      have bytes : (RawElement.nested descriptor pairs).bytes = tag '@' :: a.bytes := by
        rw [RawElement.bytes, pairs_bytes_eq]
        rfl
      rw [bytes, List.length_cons, AnnotationRecord.length_bytes] at enough
      obtain ⟨rest, rfl⟩ : ∃ rest, fuel = rest + 2 := ⟨fuel - 2, by omega⟩
      have inner : Reader.Reads (readAnnotationBody pool (rest + 1)) a.bytes (a.kept pool) := by
        apply reads_annotation pool rest a (.nested descriptor pairs text described few named valid)
        intro pair member
        have part := length_value_le pairs pair member
        exact ih pair member rest (by dsimp only [a] at enough; omega)
      rw [bytes, readElement]
      exact (Reader.reads_u8 (tag '@')).bind (inner.last (Reader.reads_pure none))
  | array values few valid ih =>
      have bytes : (RawElement.array values).bytes =
          tag '[' :: (Bytes.count16 values.length ++ values.flatMap RawElement.bytes) := by
        rw [RawElement.bytes, values_bytes_eq]
      rw [bytes, List.length_cons, List.length_append, Bytes.length_count16] at enough
      obtain ⟨rest, rfl⟩ : ∃ rest, fuel = rest + 1 := ⟨fuel - 1, by omega⟩
      have inner := Reader.reads_list_of (readElement pool rest) values RawElement.bytes
        (RawElement.kept pool) (fun value member => ih value member rest (by
          have part := length_le_flat_map values RawElement.bytes value member
          omega)) few
      rw [bytes, readElement]
      exact (Reader.reads_u8 (tag '[')).bind (inner.last (Reader.reads_pure none))

theorem reads_annotations (annotations : List AnnotationRecord) (few : annotations.length ≤ 65535)
    (valid : ∀ a ∈ annotations, a.Valid pool) (enough : (annotationsBytes annotations).length ≤ fuel) :
    Reader.Reads (Reader.listOf (readAnnotationBody pool fuel)) (annotationsBytes annotations)
      (annotations.map (·.kept pool)) := by
  apply Reader.reads_list_of _ annotations AnnotationRecord.bytes _ _ few
  intro a member
  have part := length_le_flat_map annotations AnnotationRecord.bytes a member
  rw [a.length_bytes] at part
  rw [annotationsBytes, List.length_append, Bytes.length_count16] at enough
  obtain ⟨rest, rfl⟩ : ∃ rest, fuel = rest + 1 := ⟨fuel - 1, by omega⟩
  apply reads_annotation pool rest a (valid a member)
  intro pair inside
  have piece := length_value_le a.pairs pair inside
  cases valid a member with
  | nested _ _ _ _ _ _ values => exact reads_element pool rest pair.2 (values pair inside) (by omega)

theorem parse_annotations_bytes (annotations : List AnnotationRecord) (few : annotations.length ≤ 65535)
    (valid : ∀ a ∈ annotations, a.Valid pool) (rest : List UInt8) :
    parseAnnotations pool (annotationsBytes annotations ++ rest) = .ok (annotations.map (·.kept pool)) := by
  let body := annotationsBytes annotations ++ rest
  have enough : (annotationsBytes annotations).length ≤ 2 * body.length + 2 := by
    simp only [body, List.length_append]
    omega
  have read := reads_annotations pool (2 * body.length + 2) annotations few valid enough rest 0
  rw [parseAnnotations, parse, Reader.runOn, read]
  rfl

end Reading

theorem RawElement.kept_iff (pool : Pool) (value : RawElement) (valid : value.Valid pool) :
    (value.kept pool).isSome ↔ value.letter ∈ keptLetters := by
  cases valid with
  | constant kind index entry found accepts =>
      rw [kept, found, Option.bind_some, letter]
      cases kind <;> cases entry <;> cases accepts <;>
        simp [ElementKind.value?, PoolEntry.number?, ElementKind.letter, keptLetters]
  | enumeral | nested | array => simp [kept, letter, keptLetters]

-- A body is read to its end and no further, and of each annotation the pairs whose value has one of
-- these letters are kept, whatever else stands between them.
theorem parse_annotations_exact (pool : Pool) (annotations : List AnnotationRecord)
    (few : annotations.length ≤ 65535) (valid : ∀ a ∈ annotations, a.Valid pool) :
    (∀ fuel rest offset, (annotationsBytes annotations).length ≤ fuel →
      Reader.listOf (readAnnotationBody pool fuel) ⟨annotationsBytes annotations ++ rest, offset⟩ =
        .ok (annotations.map (·.kept pool), ⟨rest, offset + (annotationsBytes annotations).length⟩)) ∧
    (∀ rest, parseAnnotations pool (annotationsBytes annotations ++ rest) =
      .ok (annotations.map (·.kept pool))) ∧
    ∀ a ∈ annotations, ∀ pair ∈ a.pairs,
      (pair.2.kept pool).isSome ↔ pair.2.letter ∈ keptLetters := by
  refine ⟨?_, ?_, ?_⟩
  · intro fuel rest offset enough
    exact reads_annotations pool fuel annotations few valid enough rest offset
  · exact parse_annotations_bytes pool annotations few valid
  · intro a member pair inside
    cases valid a member with
    | nested _ _ _ _ _ _ values => exact pair.2.kept_iff pool (values pair inside)

-- A character, an array of a nested annotation and a floating-point number, an enumeral, a class.
def ornate : AnnotationRecord where
  descriptor := 1
  pairs := [(2, .constant .char 3),
    (2, .array [.nested 1 [(2, .constant .long 4)], .constant .double 6]),
    (2, .enumeral 1 2), (2, .constant .classInfo 1)]

def ornatePool : Pool :=
  ⟨#[.empty, .utf8 "LA;", .utf8 "x", .integer 120, .long 5, .empty, .double 0, .empty]⟩

theorem ornate_valid : ornate.Valid ornatePool := by
  have named : ∀ pair ∈ ornate.pairs, ∃ name, ornatePool.utf8 pair.1 = .ok name := by
    intro pair member
    simp only [ornate, List.mem_cons, List.not_mem_nil, or_false] at member
    rcases member with rfl | rfl | rfl | rfl <;> exact ⟨"x", rfl⟩
  refine .nested _ _ "LA;" rfl (by decide) named ?_
  intro pair member
  simp only [ornate, List.mem_cons, List.not_mem_nil, or_false] at member
  rcases member with rfl | rfl | rfl | rfl
  · exact .constant .char 3 (.integer 120) rfl trivial
  · refine .array _ (by decide) ?_
    intro value inside
    simp only [List.mem_cons, List.not_mem_nil, or_false] at inside
    rcases inside with rfl | rfl
    · refine .nested 1 _ "LA;" rfl (by decide) ?_ ?_
      · intro pair member
        cases List.mem_singleton.mp member
        exact ⟨"x", rfl⟩
      · intro pair member
        cases List.mem_singleton.mp member
        exact .constant .long 4 (.long 5) rfl trivial
    · exact .constant .double 6 (.double 0) rfl trivial
  · exact .enumeral 1 2 "LA;" "x" rfl rfl
  · exact .constant .classInfo 1 (.utf8 "LA;") rfl trivial

theorem parse_annotations_exact_ornate :
    [ornate].length ≤ 65535 ∧ (∀ a ∈ [ornate], a.Valid ornatePool) ∧
    (annotationsBytes [ornate]).length = 41 ∧
    Reader.listOf (readAnnotationBody ornatePool 41) ⟨annotationsBytes [ornate] ++ [7], 0⟩ =
      .ok ([⟨"LA;", [("x", .int 120), ("x", .text "LA;")]⟩], ⟨[7], 41⟩) := by
  have valid : ∀ a ∈ [ornate], a.Valid ornatePool := by
    intro a member
    cases List.mem_singleton.mp member
    exact ornate_valid
  have kept : [ornate].map (·.kept ornatePool) = [⟨"LA;", [("x", .int 120), ("x", .text "LA;")]⟩] := by
    decide
  have read := (parse_annotations_exact ornatePool [ornate] (by decide) valid).1 41 [7] 0 (by decide)
  rw [kept] at read
  exact ⟨by decide, valid, by decide, read⟩

end ClassFile

end JvmEdit
