import JvmEdit.Proofs.ClassFile.Extent
set_option autoImplicit false

namespace JvmEdit

namespace ClassFile

open Reader

-- A method as it stands in a file.
structure MethodRow where
  access : UInt16
  name : UInt16
  descriptor : UInt16
  attributes : List Attribute
  deriving DecidableEq, Repr, Inhabited

namespace MethodRow

def bytes (row : MethodRow) : List UInt8 :=
  Bytes.u16 row.access ++ (Bytes.u16 row.name ++ (Bytes.u16 row.descriptor ++
    attributeBytes row.attributes))

-- The row with every attribute left out that holds code.
def withoutCode (pool : Pool) (row : MethodRow) : MethodRow :=
  { row with attributes := row.attributes.filter fun attr =>
      (pool.utf8 attr.1).toOption ≠ some "Code" }

end MethodRow

-- A file before, in and after its list of methods.
structure Sections where
  front : List UInt8
  rows : List MethodRow
  tail : List UInt8
  deriving DecidableEq, Repr, Inhabited

def Sections.bytes (file : Sections) : List UInt8 :=
  file.front ++ (Bytes.count16 file.rows.length ++ file.rows.flatMap MethodRow.bytes) ++ file.tail

def readRow : Reader MethodRow := do
  let access ← u16
  let name ← u16
  let descriptor ← u16
  let attributes ← listOf do
    let index ← u16
    let length ← u32
    let body ← Reader.bytes length.toNat
    return (index, body)
  return ⟨access, name, descriptor, attributes⟩

-- What stands before the methods: the header as it is until the attributes of the class are read.
structure Front where
  header : ClassHeader
  pool : Pool
  fields : List FieldDecl

def readIntroduction : Reader Front := do
  let _minor ← u16
  let version ← u16
  let pool ← Pool.read
  let access ← u16
  let name ← readClassName pool
  let superIndex ← u16
  let superName ← pool.optionalClassName superIndex
  let interfaces ← listOf (readClassName pool)
  let fields ← listOf (readField pool)
  return ⟨⟨name, superName, interfaces, none, ⟨access⟩, version, [], []⟩, pool, fields⟩

def readFront : Reader Front := do
  let word ← u32
  if word ≠ magic then Reader.fail (.classFile .badMagic)
  else readIntroduction

-- Takes a file apart.
def sections (bytes : List UInt8) : Except DecodeError Sections := do
  let (_, afterFront) ← readFront.runOn bytes
  let (rows, afterRows) ← (listOf readRow).runOn afterFront.rest
  return ⟨bytes.take afterFront.offset, rows, afterRows.rest⟩

def takeMethodPart (pool : Pool) (skipDebug : Bool) (method : RawMethod) (name : String)
    (body : List UInt8) : Except DecodeError RawMethod :=
  match name with
  | "Code" => do
      let code ← parse (readCode pool skipDebug) body
      return { method with code := some code }
  | "Exceptions" => do
      let more ← parse (Reader.listOf (readClassName pool)) body
      return { method with decl.exceptions := method.decl.exceptions ++ more }
  | "Signature" => do
      let signature ← parse (readUtf8 pool) body
      return { method with decl.signature := some signature }
  | "RuntimeVisibleAnnotations" => do
      let annotations ← parseAnnotations pool body
      return { method with decl.annotations := annotations }
  | _ => return method

theorem read_method_parts (pool : Pool) (skipDebug : Bool) : readMethod pool skipDebug = (do
    let access ← u16
    let name ← readUtf8 pool
    let descriptor ← readUtf8 pool
    readAttributes pool ⟨⟨name, descriptor, none, ⟨access⟩, [], []⟩, none⟩
      (takeMethodPart pool skipDebug)) := rfl

theorem read_class_parts (skipDebug : Bool) : readClass skipDebug = (do
    let front ← readFront
    let methods ← listOf (readMethod front.pool skipDebug)
    let header ← readAttributes front.pool front.header (takeClassAttribute front.pool)
    return ⟨header, front.pool, front.fields, methods⟩) := by
  rw [readFront, bind_assoc]
  refine congrArg (u32 >>= ·) (funext fun word => ?_)
  by_cases wrong : word ≠ magic
  · rw [if_pos wrong, if_pos wrong]
    rfl
  · rw [if_neg wrong, if_neg wrong, readIntroduction]
    simp only [bind_assoc, pure_bind]
    rfl

section Rows

variable (pool : Pool) (skipDebug : Bool)

-- The method that is read from a row.
def MethodRow.Means (row : MethodRow) (m : RawMethod) : Prop :=
  ∃ name descriptor, pool.utf8 row.name = .ok name ∧ pool.utf8 row.descriptor = .ok descriptor ∧
    Takes pool (takeMethodPart pool skipDebug) 65535 row.attributes
      ⟨⟨name, descriptor, none, ⟨row.access⟩, [], []⟩, none⟩ m

theorem splits_method : Splits (readMethod pool skipDebug) MethodRow.bytes
    (MethodRow.Means pool skipDebug) := by
  rw [read_method_parts]
  intro c m c₄ ran
  obtain ⟨_, c₁, first, ran⟩ := state_t_bind _ _ c c₄ m ran
  obtain ⟨name, c₂, second, ran⟩ := state_t_bind _ _ c₁ c₄ m ran
  obtain ⟨descriptor, c₃, third, fourth⟩ := state_t_bind _ _ c₂ c₄ m ran
  obtain ⟨access, rfl, isAccess⟩ := splits_u16 c _ c₁ first
  obtain ⟨nameIndex, named, isName⟩ := splits_utf8 pool c₁ name c₂ second
  obtain ⟨descriptorIndex, described, isDescriptor⟩ := splits_utf8 pool c₂ descriptor c₃ third
  obtain ⟨attributes, takes, areAttributes⟩ := splits_attributes pool _ _ c₃ m c₄ fourth
  refine ⟨⟨access, nameIndex, descriptorIndex, attributes⟩, ⟨name, descriptor, named, described, takes⟩, ?_⟩
  rw [isAccess, isName, isDescriptor, areAttributes]
  simp only [MethodRow.bytes, List.append_assoc]

variable {pool skipDebug}

theorem MethodRow.Means.reads {row : MethodRow} {m : RawMethod} (means : row.Means pool skipDebug m) :
    Reads (readMethod pool skipDebug) row.bytes m := by
  obtain ⟨name, descriptor, named, described, takes⟩ := means
  rw [read_method_parts]
  exact (reads_u16 _).bind (((reads_u16 _).last (reads_lift _ _ named)).bind
    (((reads_u16 _).last (reads_lift _ _ described)).bind (reads_takes takes (Nat.le_refl _))))

theorem MethodRow.Means.reads_row {row : MethodRow} {m : RawMethod} (means : row.Means pool skipDebug m) :
    Reads readRow row.bytes row := by
  obtain ⟨name, descriptor, _, _, few, tables, each, small, _⟩ := means
  have short : ∀ attr ∈ row.attributes, attr.2.length < 2 ^ 32 := by
    refine forall₂_left ((List.forall₂_and_left _ _).mpr ⟨small, each⟩).flip ?_
    intro attr table both
    rw [both.2.2]
    exact both.1
  have one : ∀ attr ∈ row.attributes, Reads (do
      let index ← u16
      let length ← u32
      let body ← Reader.bytes length.toNat
      return (index, body)) (Attribute.bytes attr) attr := by
    intro attr member
    have length : (UInt32.ofNat attr.2.length).toNat = attr.2.length := by
      rw [UInt32.toNat_ofNat']
      exact Nat.mod_eq_of_lt (short attr member)
    rw [Attribute.bytes, List.append_assoc]
    refine (reads_u16 _).bind ((reads_u32 _).bind ?_)
    rw [length]
    exact (reads_bytes _).last (reads_pure _)
  have all := reads_list_of _ row.attributes Attribute.bytes id one few
  rw [List.map_id] at all
  exact (reads_u16 _).bind ((reads_u16 _).bind ((reads_u16 _).bind (all.last (reads_pure _))))

end Rows

section Sections

variable {skipDebug : Bool}

-- The class that is read from a file, part by part.
structure Sections.Means (skipDebug : Bool) (file : Sections) (header : ClassHeader)
    (raw : RawClass) : Prop where
  front : Reads readFront file.front ⟨header, raw.pool, raw.fields⟩
  few : file.rows.length ≤ 65535
  rows : List.Forall₂ (MethodRow.Means raw.pool skipDebug) file.rows raw.methods
  tail : ∃ attributes rest, file.tail = attributes ++ rest ∧
    Reads (readAttributes raw.pool header (takeClassAttribute raw.pool)) attributes raw.header

theorem parse_of_means {file : Sections} {header : ClassHeader} {raw : RawClass}
    (means : file.Means skipDebug header raw) : parse (readClass skipDebug) file.bytes = .ok raw := by
  obtain ⟨attributes, rest, isTail, readsTail⟩ := means.tail
  have rows : List.Forall₂ (fun m row => Reads (readMethod raw.pool skipDebug) row m) raw.methods
      (file.rows.map MethodRow.bytes) := by
    apply List.forall₂_map_right_iff.mpr
    exact means.rows.flip.imp fun m row held => MethodRow.Means.reads held
  have methods := reads_rows _ _ _ rows (by rw [List.length_map]; exact means.few)
  rw [List.length_map, ← List.flatMap_def] at methods
  have whole : Reads (readClass skipDebug) (file.front ++ (Bytes.count16 file.rows.length ++
      file.rows.flatMap MethodRow.bytes ++ attributes)) raw := by
    rw [read_class_parts]
    exact means.front.bind (methods.bind (readsTail.last (reads_pure _)))
  have parsed := parse_of_reads_append _ _ rest raw whole
  rw [List.append_assoc, List.append_assoc _ attributes, ← isTail, ← List.append_assoc] at parsed
  exact parsed

theorem local_read_introduction : Local readIntroduction :=
  local_u16.bind fun _ => local_u16.bind fun _ => Pool.local_read.bind fun pool => local_u16.bind fun _ =>
    (local_read_class_name pool).bind fun _ => local_u16.bind fun _ => (Local.lift _).bind fun _ =>
      (local_list_of (local_read_class_name pool)).bind fun _ =>
        (local_list_of (local_read_field pool)).bind fun _ => .pure _

theorem local_read_front : Local readFront := by
  refine local_u32.bind fun word => ?_
  split
  · exact .fail _
  · exact local_read_introduction

theorem sections_of_parse {bytes : List UInt8} {raw : RawClass}
    (parsed : parse (readClass skipDebug) bytes = .ok raw) : ∃ file header,
      sections bytes = .ok file ∧ file.bytes = bytes ∧ file.Means skipDebug header raw := by
  obtain ⟨⟨_, c₃⟩, ran, rfl⟩ := except_map _ _ _ parsed
  change readClass skipDebug ⟨bytes, 0⟩ = _ at ran
  rw [read_class_parts] at ran
  obtain ⟨front, c₁, first, ran⟩ := state_t_bind _ _ ⟨bytes, 0⟩ c₃ _ ran
  obtain ⟨methods, c₂, second, ran⟩ := state_t_bind _ _ c₁ c₃ _ ran
  obtain ⟨header, c₃', third, last⟩ := state_t_bind _ _ c₂ c₃ _ ran
  cases last
  obtain ⟨taken, readsFront, isFront⟩ := local_read_front ⟨bytes, 0⟩ front c₁ first
  obtain ⟨rows, held, areRows⟩ := splits_list_of (splits_method front.pool skipDebug) c₁ methods c₂ second
  obtain ⟨attributes, readsTail, isTail⟩ := local_attributes front.pool _ _ c₂ header c₃ third
  dsimp only [id] at readsFront isFront areRows readsTail isTail
  have stop : c₁.offset = taken.length := by
    have again := readsFront c₁.rest 0
    rw [← isFront, first] at again
    have same := congrArg Cursor.offset (Prod.ext_iff.mp (Except.ok.inj again)).2
    exact same.trans (Nat.zero_add _)
  have means : (⟨taken, rows, c₂.rest⟩ : Sections).Means skipDebug front.header
      ⟨header, front.pool, front.fields, methods⟩ :=
    ⟨readsFront, held.1, held.2, attributes, c₃.rest, isTail, readsTail⟩
  refine ⟨⟨taken, rows, c₂.rest⟩, front.header, ?_, ?_, means⟩
  · have readsRows : Reads (listOf readRow)
        (Bytes.count16 rows.length ++ rows.flatMap MethodRow.bytes) rows := by
      have all := reads_list_of readRow rows MethodRow.bytes id
        (forall₂_left held.2 fun row m held => MethodRow.Means.reads_row held) held.1
      rwa [List.map_id] at all
    have isTaken : bytes.take c₁.offset = taken := by
      rw [isFront, stop, List.take_left]
    have ranRows : (listOf readRow).runOn c₁.rest = _ := areRows ▸ readsRows c₂.rest 0
    have ranFront : readFront.runOn bytes = _ := first
    rw [sections, ranFront]
    change ((listOf readRow).runOn c₁.rest >>= _) = _
    rw [ranRows, isTaken]
    rfl
  · rw [Sections.bytes, isFront, areRows]
    exact List.append_assoc ..

end Sections

section Trimmed

def RawMethod.bare (m : RawMethod) : RawMethod := { m with code := none }

-- There is code, and it cannot be read.
def RawMethod.isFaulty (pool : Pool) (m : RawMethod) : Bool :=
  m.code.any fun code => !(Code.decode code.bytes pool code.ranges code.locals).isOk

def RawMethod.trimmed (pool : Pool) (m : RawMethod) : RawMethod :=
  if m.isFaulty pool then m.bare else m

def RawClass.trimmed (c : RawClass) : RawClass :=
  { c with methods := c.methods.map (RawMethod.trimmed c.pool) }

def MethodRow.trimmed (pool : Pool) (row : MethodRow) (m : RawMethod) : MethodRow :=
  if m.isFaulty pool then row.withoutCode pool else row

-- The file without the code that cannot be read.
def Sections.trimmed (file : Sections) (c : RawClass) : Sections :=
  { file with rows := List.zipWith (MethodRow.trimmed c.pool) file.rows c.methods }

variable {pool : Pool} {skipDebug : Bool}

theorem take_method_part_code (m m' : RawMethod) (body : List UInt8)
    (taken : takeMethodPart pool skipDebug m "Code" body = .ok m') : m'.bare = m.bare := by
  obtain ⟨code, _, done⟩ := except_bind _ _ _ taken
  cases done
  rfl

theorem take_method_part_bare (m : RawMethod) (name : String) (body : List UInt8) (other : name ≠ "Code") :
    takeMethodPart pool skipDebug m.bare name body =
      RawMethod.bare <$> takeMethodPart pool skipDebug m name body := by
  unfold takeMethodPart
  split
  · exact absurd rfl other
  · cases parse (Reader.listOf (readClassName pool)) body <;> rfl
  · cases parse (readUtf8 pool) body <;> rfl
  · cases parseAnnotations pool body <;> rfl
  · rfl

theorem foldl_m_without_code (tables : List (String × List UInt8)) (m final : RawMethod)
    (folded : tables.foldlM (fun m table => takeMethodPart pool skipDebug m table.1 table.2) m = .ok final) :
    (tables.filter fun table => table.1 ≠ "Code").foldlM
      (fun m table => takeMethodPart pool skipDebug m table.1 table.2) m.bare = .ok final.bare := by
  induction tables generalizing m with
  | nil =>
      cases folded
      rfl
  | cons table tables ih =>
      rw [List.foldlM_cons] at folded
      obtain ⟨next, taken, folded⟩ := except_bind _ _ _ folded
      have later := ih next folded
      by_cases isCode : table.1 = "Code"
      · rw [isCode] at taken
        rw [List.filter_cons_of_neg (by simp [isCode]), ← take_method_part_code m next table.2 taken]
        exact later
      · rw [List.filter_cons_of_pos (by simp [isCode]), List.foldlM_cons,
          take_method_part_bare m _ _ isCode, taken]
        exact later

theorem MethodRow.Means.without_code {row : MethodRow} {m : RawMethod}
    (means : row.Means pool skipDebug m) : (row.withoutCode pool).Means pool skipDebug m.bare := by
  obtain ⟨name, descriptor, named, described, few, tables, each, small, folded⟩ := means
  refine ⟨name, descriptor, named, described, Nat.le_trans (List.length_filter_le ..) few,
    tables.filter fun table => table.1 ≠ "Code", ?_, ?_, foldl_m_without_code tables _ m folded⟩
  · refine List.rel_filter ?_ each
    intro table attr held
    simp [held.1, Except.toOption]
  · exact fun table member => small table (List.mem_of_mem_filter member)

theorem MethodRow.Means.trimmed {row : MethodRow} {m : RawMethod} (means : row.Means pool skipDebug m) :
    (row.trimmed pool m).Means pool skipDebug (m.trimmed pool) := by
  unfold MethodRow.trimmed RawMethod.trimmed
  by_cases faulty : m.isFaulty pool
  · rw [if_pos faulty, if_pos faulty]
    exact means.without_code
  · rw [if_neg faulty, if_neg faulty]
    exact means

theorem means_trimmed {file : Sections} {header : ClassHeader} {raw : RawClass}
    (means : file.Means skipDebug header raw) : (file.trimmed raw).Means skipDebug header raw.trimmed where
  front := means.front
  few := by
    refine Nat.le_trans ?_ means.few
    rw [Sections.trimmed, List.length_zipWith]
    exact Nat.min_le_left ..
  rows := by
    have each := means.rows
    simp only [Sections.trimmed, RawClass.trimmed]
    generalize file.rows = rows, raw.methods = methods at each
    induction each with
    | nil => exact .nil
    | cons first _ ih => exact .cons first.trimmed ih
  tail := means.tail

theorem method_events_trimmed (className : String) (m : RawMethod) :
    methodEvents className pool (m.trimmed pool) = pure (methodEvents className pool m).value := by
  obtain ⟨decl, code⟩ := m
  cases code with
  | none => rfl
  | some code =>
      cases decoded : Code.decode code.bytes pool code.ranges code.locals with
      | ok body =>
          have sound : ¬RawMethod.isFaulty pool ⟨decl, some code⟩ := by
            simp [RawMethod.isFaulty, decoded, Except.isOk, Except.toBool]
          rw [RawMethod.trimmed, if_neg sound]
          simp only [methodEvents, decoded]
          rfl
      | error e =>
          have faulty : RawMethod.isFaulty pool ⟨decl, some code⟩ := by
            simp [RawMethod.isFaulty, decoded, Except.isOk, Except.toBool]
          rw [RawMethod.trimmed, if_pos faulty]
          simp only [RawMethod.bare, methodEvents, decoded]
          rfl

theorem events_trimmed (raw : RawClass) : events raw.trimmed = pure (events raw).value := by
  have told : ∀ methods : List RawMethod,
      (methods.map (RawMethod.trimmed raw.pool)).mapM (methodEvents raw.header.name raw.pool) =
        pure (methods.mapM (methodEvents raw.header.name raw.pool)).value := by
    intro methods
    induction methods with
    | nil => rfl
    | cons m methods ih =>
        rw [List.map_cons, List.mapM_cons, method_events_trimmed, ih, List.mapM_cons]
        rfl
  exact events_told raw.trimmed _ (told raw.methods)

end Trimmed

end ClassFile

end JvmEdit
