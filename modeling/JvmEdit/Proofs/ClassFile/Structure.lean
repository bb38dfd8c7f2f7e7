import JvmEdit.Libraries.Standard
import JvmEdit.Proofs.ClassFile.Methods
import JvmEdit.Proofs.ClassFile.PoolRequests
set_option autoImplicit false

namespace JvmEdit

-- Warnings are kept in order however the steps are grouped.
instance : LawfulMonad Logged := .mk' Logged
  (fun _ => congrArg (Logged.mk _) (List.append_nil _))
  (fun _ _ => rfl)
  (fun _ _ _ => congrArg (Logged.mk _) (List.append_assoc ..))

namespace ClassFile

section Read

def headerOf (c : Class) (version : UInt16) : ClassHeader :=
  ⟨c.name, c.superName, c.interfaces, c.signature, c.access, version, c.annotations, c.bootstrapMethods⟩

def liveFields (p : Program) (c : Class) : List Field := c.fields.filterMap p.field?

def liveMethods (p : Program) (c : Class) : List Method := c.methods.filterMap p.method?

-- The version that goes with what the class uses.
def versionOf (p : Program) (c : Class) : UInt16 :=
  writtenVersion c ((liveMethods p c).any (isModern c))

-- The counts of the class and of its members fit their two bytes. Annotations and bootstrap methods
-- are counted lists inside a counted list, so they alone could outgrow the four bytes of an attribute's
-- length, and are bounded by it too.
structure ClassFits (c : Class) (fields : List Field) (methods : List Method) : Prop where
  interfaces : c.interfaces.length ≤ 65535
  fieldCount : fields.length ≤ 65535
  methodCount : methods.length ≤ 65535
  fields : ∀ f ∈ fields, FieldFits f
  methods : ∀ m ∈ methods, MethodFits m
  annotations : AnnotationsFit c.annotations
  bootstrap : BootstrapFit c.bootstrapMethods

theorem body_bytes_eq [Libraries] (c : Class) (fields : List Field) (methods : List Method) :
    bodyBytes c fields methods = (do
      let name ← indexBytes (PoolBuilder.className c.name)
      let superName ← indexBytes (catchIndex c.superName)
      let interfaces ← listBytes c.interfaces fun name => indexBytes (PoolBuilder.className name)
      let fields ← listBytes fields fieldBytes
      let methods ← listBytes methods (methodBytes c.name)
      let signature ← signatureAttribute c.signature
      let annotations ← annotationAttribute c.annotations
      let bootstrap ← bootstrapAttribute c.bootstrapMethods
      pure (Bytes.u16 c.access.bits ++ name ++ superName ++ interfaces ++ fields ++ methods ++
        attributeBytes (signature ++ annotations ++ bootstrap))) := by
  unfold bodyBytes catchIndex
  cases c.superName <;> rfl

def takeClassAttribute (pool : Pool) (header : ClassHeader) (name : String) (body : List UInt8) :
    Except DecodeError ClassHeader :=
  match name with
  | "Signature" => do
      let signature ← parse (readUtf8 pool) body
      return { header with signature := some signature }
  | "RuntimeVisibleAnnotations" => do
      let annotations ← parseAnnotations pool body
      return { header with annotations }
  | "BootstrapMethods" => do
      let bootstrapMethods ← parse (Reader.listOf (readBootstrapMethod pool)) body
      return { header with bootstrapMethods }
  | _ => return header

-- A class after its version and its pool.
def readBody (version : UInt16) (pool : Pool) : Reader RawClass := do
  let access ← Reader.u16
  let name ← readClassName pool
  let superIndex ← Reader.u16
  let superName ← pool.optionalClassName superIndex
  let interfaces ← Reader.listOf (readClassName pool)
  let fields ← Reader.listOf (readField pool)
  let methods ← Reader.listOf (readMethod pool false)
  let header ← readAttributes pool ⟨name, superName, interfaces, none, ⟨access⟩, version, [], []⟩
    (takeClassAttribute pool)
  return ⟨header, pool, fields, methods⟩

theorem read_class_eq : readClass false = (do
    let word ← Reader.u32
    if word ≠ magic then Reader.fail (.classFile .badMagic)
    let _minor ← Reader.u16
    let version ← Reader.u16
    let pool ← Pool.read
    readBody version pool) := rfl

theorem takes_class (c : Class) (version : UInt16) (pool : Pool)
    (signature annotations bootstrap : List Attribute)
    (signed : Stored "Signature" (fun pool => parse (readUtf8 pool)) c.signature pool signature)
    (annotated : Stored "RuntimeVisibleAnnotations" parseAnnotations (listed c.annotations) pool
      annotations)
    (bootstrapped : Stored "BootstrapMethods"
      (fun pool => parse (Reader.listOf (readBootstrapMethod pool))) (listed c.bootstrapMethods) pool
      bootstrap) :
    Takes pool (takeClassAttribute pool) 3 (signature ++ annotations ++ bootstrap)
      ⟨c.name, c.superName, c.interfaces, none, c.access, version, [], []⟩ (headerOf c version) := by
  have first := takes_stored (takeClassAttribute pool)
    (fun s (header : ClassHeader) => { header with signature := some s }) signed (fun _ _ => rfl)
  have second := takes_stored (takeClassAttribute pool)
    (fun a (header : ClassHeader) => { header with annotations := a }) annotated (fun _ _ => rfl)
  have third := takes_stored (takeClassAttribute pool)
    (fun b (header : ClassHeader) => { header with bootstrapMethods := b }) bootstrapped (fun _ _ => rfl)
  have all := ((first ⟨c.name, c.superName, c.interfaces, none, c.access, version, [], []⟩).append
    (second _)).append (third _)
  convert all using 1
  unfold headerOf listed
  cases c.signature <;> cases c.annotations <;> cases c.bootstrapMethods <;> rfl

-- A method as it stands in the class that is read.
def RawRead [Libraries] (className : String) (m : Method) (pool : Pool) (raw : RawMethod) : Prop :=
  ∃ code, CodeRead className m pool code ∧ raw = ⟨methodDecl m, code⟩

theorem keeps_methods [Libraries] (className : String) (methods : List Method)
    (few : methods.length ≤ 65535) (fits : ∀ m ∈ methods, MethodFits m) :
    Keeps (listBytes methods (methodBytes className)) fun pool bytes => ∃ raws,
      List.Forall₂ (fun m raw => RawRead className m pool raw) methods raws ∧
        Reader.Reads (Reader.listOf (readMethod pool false)) bytes raws := by
  refine (keeps_rows methods _ _ fun m member => keeps_method className m (fits m member)).imp ?_
  rintro pool bytes ⟨rows, each, rfl⟩
  have read : ∃ raws, List.Forall₂ (fun m raw => RawRead className m pool raw) methods raws ∧
      List.Forall₂ (fun raw row => Reader.Reads (readMethod pool false) row raw) raws rows := by
    clear few fits
    induction each with
    | nil => exact ⟨[], .nil, .nil⟩
    | cons first _ ih =>
        obtain ⟨code, isCode, reads⟩ := first
        obtain ⟨raws, are, readsLater⟩ := ih
        exact ⟨_ :: raws, .cons ⟨code, isCode, rfl⟩ are, .cons reads readsLater⟩
  obtain ⟨raws, are, reads⟩ := read
  exact ⟨raws, are, reads_rows _ raws rows reads (each.length_eq ▸ few)⟩

theorem keeps_fields (fields : List Field) (few : fields.length ≤ 65535)
    (fits : ∀ f ∈ fields, FieldFits f) : Keeps (listBytes fields fieldBytes) fun pool bytes =>
      Reader.Reads (Reader.listOf (readField pool)) bytes (fields.map fieldDecl) := by
  refine (keeps_rows fields _ _ fun f member => keeps_field f (fits f member)).imp ?_
  rintro pool bytes ⟨rows, each, rfl⟩
  exact reads_rows _ _ rows (List.forall₂_map_left_iff.mpr each) (each.length_eq ▸ few)

theorem keeps_body [Libraries] (c : Class) (fields : List Field) (methods : List Method)
    (version : UInt16) (fits : ClassFits c fields methods) :
    Keeps (bodyBytes c fields methods) fun pool bytes => ∃ raws,
      List.Forall₂ (fun m raw => RawRead c.name m pool raw) methods raws ∧
        Reader.Reads (readBody version pool) bytes
          ⟨headerOf c version, pool, fields.map fieldDecl, raws⟩ := by
  have superName := keeps_found _ Pool.optionalClassName c.superName (growing_catch_index c.superName)
    (answers_catch_index c.superName)
  rw [body_bytes_eq]
  refine ((keeps_class_name c.name).bind fun name => superName.bind fun superName =>
    (keeps_names c.interfaces fits.interfaces).bind fun interfaces =>
      (keeps_fields fields fits.fieldCount fits.fields).bind fun fieldRows =>
        (keeps_methods c.name methods fits.methodCount fits.methods).bind fun methodRows =>
          (keeps_signature c.signature).bind fun signature =>
            (keeps_annotations c.annotations fits.annotations).bind fun annotations =>
              (keeps_bootstraps c.bootstrapMethods fits.bootstrap).last _).imp ?_
  rintro pool bytes ⟨name, ⟨named, _⟩, superRow, ⟨superIndex, rfl, hasSuper⟩, interfaces, ⟨implemented, _⟩,
    fieldRows, fieldsRead, methodRows, ⟨raws, areRaws, methodsRead⟩, signature, signed, annotations, annotated,
    bootstrap, bootstrapped, rfl⟩
  have attributes := reads_takes (takes_class c version pool signature annotations bootstrap signed
    annotated bootstrapped) (by decide)
  refine ⟨raws, areRaws, ?_⟩
  rw [List.append_assoc, List.append_assoc, List.append_assoc, List.append_assoc, List.append_assoc]
  exact (Reader.reads_u16 c.access.bits).bind (named.bind ((Reader.reads_u16 superIndex).bind
    ((Reader.reads_lift _ _ hasSuper).bind (implemented.bind (fieldsRead.bind (methodsRead.bind
      (attributes.last (Reader.reads_pure _))))))))

theorem encode_parts [Libraries] (p : Program) (id : ClassId) (c : Class) (bytes : List UInt8)
    (found : p.class? id = some c) (written : encode p id = .ok bytes) : ∃ body b,
      bodyBytes c (liveFields p c) (liveMethods p c) {} = .ok (body, b) ∧
      bytes = Bytes.u32 magic ++ Bytes.u16 0 ++ Bytes.u16 (versionOf p c) ++ b.write ++ body := by
  simp only [encode, found] at written
  obtain ⟨⟨body, b⟩, ran, last⟩ := except_bind _ _ _ written
  cases last
  exact ⟨body, b, ran, rfl⟩

theorem read_class_encode [Libraries] (p : Program) (id : ClassId) (c : Class) (bytes : List UInt8)
    (found : p.class? id = some c) (fits : ClassFits c (liveFields p c) (liveMethods p c))
    (written : encode p id = .ok bytes) : ∃ pool raws,
      List.Forall₂ (fun m raw => RawRead c.name m pool raw) (liveMethods p c) raws ∧
      parse (readClass false) bytes = .ok
        ⟨headerOf c (versionOf p c), pool, (liveFields p c).map fieldDecl, raws⟩ := by
  obtain ⟨body, b, ran, rfl⟩ := encode_parts p id c bytes found written
  have keeps := keeps_body c _ _ (versionOf p c) fits
  have valid := (keeps.growing {} b body ran).valid PoolBuilder.valid_empty
  obtain ⟨raws, areRaws, reads⟩ := keeps.promises {} b body PoolBuilder.valid_empty ran b (.refl b)
  refine ⟨b.pool, raws, areRaws, parse_of_reads _ _ _ ?_⟩
  rw [read_class_eq]
  simp only [List.append_assoc]
  refine (Reader.reads_u32 magic).bind ?_
  rw [if_neg (not_not_intro rfl)]
  exact (Reader.reads_u16 0).bind ((Reader.reads_u16 _).bind
    ((PoolBuilder.reads_pool b valid).bind reads))

theorem events_methods [Libraries] (className reader : String) (pool : Pool) (methods : List Method)
    (raws : List RawMethod)
    (read : List.Forall₂ (fun m raw => RawRead className m pool raw) methods raws) : ∃ told,
      raws.mapM (methodEvents reader pool) = (pure told : Logged (List (List ClassEvent))) ∧
        List.Forall₂ (fun m events => MethodRead className m pool events) methods told := by
  induction read with
  | nil => exact ⟨[], rfl, .nil⟩
  | @cons m raw methods raws first _ ih =>
      obtain ⟨code, isCode, rfl⟩ := first
      obtain ⟨events, isEvents, isRead⟩ := method_events_read className reader m pool code isCode
      obtain ⟨told, areTold, areRead⟩ := ih
      refine ⟨events :: told, ?_, .cons isRead areRead⟩
      rw [List.mapM_cons, isEvents, areTold]
      rfl

theorem events_told (raw : RawClass) (told : List (List ClassEvent))
    (areTold : raw.methods.mapM (methodEvents raw.header.name raw.pool) = pure told) :
    events raw = pure (.header raw.header :: raw.fields.map .field ++ told.flatten ++ [.classEnd]) := by
  rw [events, areTold, pure_bind]

-- What a reader is told of a class whose methods are told of like this.
def classEvents (p : Program) (c : Class) (told : List (List ClassEvent)) : List ClassEvent :=
  .header (headerOf c (versionOf p c)) :: (liveFields p c).map (fun f => .field (fieldDecl f)) ++
    told.flatten ++ [.classEnd]

theorem decode_written [Libraries] (p : Program) (id : ClassId) (c : Class) (bytes : List UInt8)
    (found : p.class? id = some c) (fits : ClassFits c (liveFields p c) (liveMethods p c))
    (written : encode p id = .ok bytes) (accepted : Libraries.classFileFault? bytes = none) : ∃ pool told,
      decode bytes false = .ok (pure ⟨c.name, classEvents p c told⟩) ∧
      List.Forall₂ (fun m events => MethodRead c.name m pool events) (liveMethods p c) told := by
  obtain ⟨pool, raws, areRaws, parsed⟩ := read_class_encode p id c bytes found fits written
  obtain ⟨told, areTold, areRead⟩ := events_methods c.name c.name pool _ raws areRaws
  refine ⟨pool, told, ?_, areRead⟩
  have isEvents := events_told
    ⟨headerOf c (versionOf p c), pool, (liveFields p c).map fieldDecl, raws⟩ told areTold
  rw [decode, accepted, parsed]
  change Except.ok (_ <$> events _) = _
  rw [isEvents, List.map_map]
  rfl

-- A class that is written and then read is told of as it was: its header, with the version that
-- goes with what it uses; then its fields; then its methods, each with its body when it has one.
-- Nothing is skipped.
theorem decode_encode_class [Libraries] (p : Program) (id : ClassId) (c : Class) (bytes : List UInt8)
    (found : p.class? id = some c) (fits : ClassFits c (liveFields p c) (liveMethods p c))
    (written : encode p id = .ok bytes) (accepted : Libraries.classFileFault? bytes = none) : ∃ pool told,
      decode bytes false = .ok (pure ⟨c.name, .header (headerOf c (versionOf p c)) ::
        (liveFields p c).map (fun f => .field (fieldDecl f)) ++ told.flatten ++ [.classEnd]⟩) ∧
      List.Forall₂ (fun m events => MethodRead c.name m pool events) (liveMethods p c) told :=
  decode_written p id c bytes found fits written accepted

-- A class with something in every part of its file: names and texts beyond ASCII, a field that is gone
-- from its program, a method without a body, and one whose body has a range that is dropped and a local
-- with a generic type.
def glyph : Field where
  owner := ⟨1⟩
  name := "α"
  descriptor := "D"
  signature := some "TT;"
  access := ⟨0x0019⟩
  value := some (.double 0x7ff8000000000001)
  annotations := [⟨"LN;", []⟩]

def promised : Method where
  owner := ⟨1⟩
  name := "read"
  descriptor := "()LA;"
  signature := some "()TT;"
  access := ⟨0x0401⟩
  kind := .method
  exceptions := ["java/io/IOException", "E"]
  annotations := [⟨"LN;", [("on", .bool true)]⟩]

def gallery : Class where
  name := "p/Ünit𝄞"
  superName := some "java/lang/Object"
  interfaces := ["I", "J"]
  signature := some "<T:Ljava/lang/Object;>Ljava/lang/Object;"
  access := ⟨0x0421⟩
  version := 52
  bootstrapMethods := [⟨.methodHandle 6 "B" "of" "()V" true, [.string "\x00", .long 7]⟩]
  annotations := [⟨"LM;", [("small", .int 7), ("large", .int 4294967296), ("text", .text "é")]⟩]
  fields := [⟨2⟩, ⟨3⟩]
  methods := [⟨4⟩, ⟨5⟩]

def museum : Program where
  classes := ⟨[(⟨1⟩, gallery)]⟩
  fields := ⟨[(⟨3⟩, glyph)]⟩
  methods := ⟨[(⟨4⟩, promised), (⟨5⟩, switching)]⟩

theorem fits_gallery : ClassFits gallery (liveFields museum gallery) (liveMethods museum gallery) where
  interfaces := by decide
  fieldCount := by decide
  methodCount := by decide
  fields := by
    intro f member
    cases List.mem_singleton.mp member
    refine ⟨fun value isValue => ?_, ⟨by decide, by decide, by decide⟩⟩
    cases isValue
    trivial
  methods := by
    intro m member
    rcases List.mem_cons.mp member with rfl | later
    · exact ⟨⟨by decide, by decide⟩, by decide, by decide, by decide, ⟨by decide, by decide, by decide⟩⟩
    · cases List.mem_singleton.mp later
      exact ⟨⟨by decide +kernel, by decide +kernel⟩, by decide, by decide, by decide,
        ⟨by decide, by decide, by decide⟩⟩
  annotations := ⟨by decide, by decide, by decide⟩
  bootstrap := by
    refine ⟨by decide, by decide, fun b member => ?_, by decide⟩
    cases List.mem_singleton.mp member
    refine ⟨fun low => absurd low (by decide), ?_⟩
    exact List.forall_mem_cons.mpr ⟨trivial, List.forall_mem_singleton.mpr trivial⟩

theorem decode_encode_class_gallery : museum.class? ⟨1⟩ = some gallery ∧
    ClassFits gallery (liveFields museum gallery) (liveMethods museum gallery) ∧
    ∃ bytes, encode museum ⟨1⟩ = .ok bytes ∧ Libraries.classFileFault? bytes = none ∧ ∃ pool told,
      decode bytes false = .ok (pure ⟨"p/Ünit𝄞", .header (headerOf gallery 50) ::
        [.field (fieldDecl glyph)] ++ told.flatten ++ [.classEnd]⟩) ∧
      List.Forall₂ (fun m events => MethodRead "p/Ünit𝄞" m pool events) [promised, switching] told := by
  refine ⟨by decide, fits_gallery, ?_⟩
  obtain ⟨bytes, written, valid⟩ :=
    except_shown (encode museum ⟨1⟩) Libraries.classFileFault? none (by decide +kernel)
  obtain ⟨pool, told, decoded, read⟩ :=
    decode_encode_class museum ⟨1⟩ gallery bytes (by decide) fits_gallery written valid
  exact ⟨bytes, written, valid, pool, told, decoded, read⟩

section Outgrown

variable {α β : Type}

-- Whatever follows them, these bytes make the reader fail.
def Fails (reader : Reader α) (bytes : List UInt8) (e : DecodeError) : Prop :=
  ∀ rest offset, reader ⟨bytes ++ rest, offset⟩ = .error e

theorem reads_fails {x : Reader α} {f : α → Reader β} {first second : List UInt8} {a : α} {e : DecodeError}
    (head : Reader.Reads x first a) (tail : Fails (f a) second e) : Fails (x >>= f) (first ++ second) e := by
  intro rest offset
  rw [List.append_assoc, Reader.bind_of x f _ _ a (head _ _)]
  exact tail rest _

theorem fails_bind {x : Reader α} {bytes : List UInt8} {e : DecodeError} (fails : Fails x bytes e)
    (f : α → Reader β) : Fails (x >>= f) bytes e := by
  intro rest offset
  simp only [bind, StateT.bind, fails rest offset, Except.bind]

theorem parse_of_fails (reader : Reader α) (bytes : List UInt8) (e : DecodeError)
    (fails : Fails reader bytes e) : parse reader bytes = .error e := by
  have whole := fails [] 0
  rw [List.append_nil] at whole
  simp only [parse, Reader.runOn]
  rw [whole]
  rfl

theorem attribute_outgrown {σ : Type} (pool : Pool) (state : σ)
    (use : σ → String → List UInt8 → Except DecodeError σ) (name : String) (index : UInt16)
    (body : List UInt8) (e : DecodeError) (named : pool.utf8 index = .ok name)
    (outgrown : 2 ^ 32 ∣ body.length) (refused : use state name [] = .error e) :
    Fails (readAttributes pool state use) (attributeBytes [(index, body)]) e := by
  have length : UInt32.ofNat body.length = 0 := by
    rw [← UInt32.toNat_inj, UInt32.toNat_ofNat']
    exact Nat.mod_eq_zero_of_dvd outgrown
  have read : Reader.Reads (readAttribute pool) (Bytes.u16 index ++ Bytes.count32 body.length) (name, []) := by
    refine (Reader.reads_u16 index).bind ((Reader.reads_lift _ _ named).bind ((Reader.reads_u32 _).last ?_))
    rw [length]
    exact (Reader.reads_bytes []).last (Reader.reads_pure _)
  have loop : Fails (readAttributes.loop pool use 1 state)
      (Bytes.u16 index ++ Bytes.count32 body.length ++ body) e := by
    refine reads_fails read fun rest offset => ?_
    dsimp only
    rw [refused]
    rfl
  exact reads_fails (Reader.reads_u16 1) (by simpa using loop)

def ledgerEntry (columns : Nat) : BootstrapMethod :=
  ⟨.methodHandle 6 "B" "of" "()V" false, List.replicate columns (.int 0)⟩

-- A class with nothing in it but so many bootstrap methods with so many arguments each.
def ledger (rows columns : Nat) : Class where
  name := "L"
  superName := none
  interfaces := []
  signature := none
  access := ⟨0x0020⟩
  version := 52
  bootstrapMethods := List.replicate rows (ledgerEntry columns)
  annotations := []

def office (rows columns : Nat) : Program where
  classes := ⟨[(⟨1⟩, ledger rows columns)]⟩

theorem body_bytes_ledger [Libraries] (rows columns : Nat) : bodyBytes (ledger rows columns) [] [] = (do
    let name ← indexBytes (PoolBuilder.className "L")
    let table ← bootstrapAttribute (List.replicate rows (ledgerEntry columns))
    pure (Bytes.u16 0x0020 ++ (name ++ (Bytes.u16 0 ++ (Bytes.count16 0 ++ (Bytes.count16 0 ++
      (Bytes.count16 0 ++ attributeBytes table))))))) := by
  have nothing {α : Type} (f : α → Encoder (List UInt8)) : listBytes [] f = pure (Bytes.count16 0) := rfl
  have orphan : indexBytes (catchIndex none) = pure (Bytes.u16 0) := rfl
  have untyped : signatureAttribute none = pure [] := rfl
  have unmarked : annotationAttribute [] = pure [] := rfl
  rw [body_bytes_eq]
  simp only [ledger, nothing, orphan, untyped, unmarked, pure_bind, List.nil_append, List.append_assoc]

theorem list_bytes_replicate (write : α → Encoder (List UInt8)) {a : α} {row : List UInt8}
    {b b' : PoolBuilder} (first : write a b = .ok (row, b')) (again : write a b' = .ok (row, b')) (n : Nat) :
    listBytes (List.replicate (n + 1) a) write b =
      .ok (Bytes.count16 (n + 1) ++ (List.replicate (n + 1) row).flatten, b') := by
  have rows : (List.replicate (n + 1) a).mapM write b = .ok (List.replicate (n + 1) row, b') := by
    induction n generalizing b with
    | zero =>
        rw [List.replicate_one, List.mapM_cons, state_t_bind_ok _ _ _ _ _ first]
        rfl
    | succ n ih =>
        rw [List.replicate_succ, List.mapM_cons, state_t_bind_ok _ _ _ _ _ first,
          state_t_bind_ok _ _ _ _ _ (ih again)]
        rfl
  rw [listBytes, state_t_bind_ok _ _ _ _ _ rows, List.length_replicate]
  rfl

theorem index_bytes_ok {request : Encoder UInt16} {b b' : PoolBuilder} {index : UInt16}
    (done : request b = .ok (index, b')) : indexBytes request b = .ok (Bytes.u16 index, b') := by
  rw [indexBytes, map_eq_pure_bind, state_t_bind_ok _ _ _ _ _ done]
  rfl

theorem bootstrap_bytes_ledger {b b' b'' : PoolBuilder} {handle zero : UInt16}
    (handled : PoolBuilder.constant (.methodHandle 6 "B" "of" "()V" false) b = .ok (handle, b'))
    (counted : PoolBuilder.constant (.int 0) b' = .ok (zero, b'')) (columns : Nat) :
    bootstrapBytes (ledgerEntry (columns + 1)) b = .ok (Bytes.u16 handle ++
      (Bytes.count16 (columns + 1) ++ (List.replicate (columns + 1) (Bytes.u16 zero)).flatten), b'') := by
  have again := PoolBuilder.repeats_constant (.int 0) b' b'' zero counted b'' (.refl b'')
  have arguments := list_bytes_replicate (fun c => indexBytes (PoolBuilder.constant c)) (index_bytes_ok counted)
    (index_bytes_ok again) columns
  rw [bootstrapBytes, ledgerEntry, state_t_bind_ok _ _ _ _ _ (index_bytes_ok handled),
    state_t_bind_ok _ _ _ _ _ arguments]
  rfl

-- What a ledger asks its pool for, whatever its size.
def ledgerRequests : Encoder UInt16 := do
  let _ ← PoolBuilder.className "L"
  let _ ← PoolBuilder.constant (.methodHandle 6 "B" "of" "()V" false)
  let _ ← PoolBuilder.constant (.int 0)
  PoolBuilder.utf8 "BootstrapMethods"

theorem list_bytes_ledger {b b' b'' : PoolBuilder} {handle zero : UInt16}
    (handled : PoolBuilder.constant (.methodHandle 6 "B" "of" "()V" false) b = .ok (handle, b'))
    (counted : PoolBuilder.constant (.int 0) b' = .ok (zero, b'')) (rows columns : Nat) :
    ∃ table, listBytes (List.replicate (rows + 1) (ledgerEntry (columns + 1))) bootstrapBytes b =
      .ok (table, b'') := by
  have grown := PoolBuilder.growing_constant (.int 0) b' b'' zero counted
  have handledAgain := PoolBuilder.repeats_constant _ b b' handle handled b'' grown
  have countedAgain := PoolBuilder.repeats_constant _ b' b'' zero counted b'' (.refl b'')
  exact ⟨_, list_bytes_replicate bootstrapBytes (bootstrap_bytes_ledger handled counted columns)
    (bootstrap_bytes_ledger handledAgain countedAgain columns) rows⟩

theorem encode_ledger [Libraries] (rows columns : Nat) :
    ∃ bytes, encode (office (rows + 1) (columns + 1)) ⟨1⟩ = .ok bytes := by
  obtain ⟨⟨_, _⟩, ran⟩ := except_ok (ledgerRequests {}) (by decide +kernel)
  obtain ⟨name, b₁, isName, ran⟩ := state_t_bind _ _ _ _ _ ran
  obtain ⟨handle, b₂, handled, ran⟩ := state_t_bind _ _ _ _ _ ran
  obtain ⟨zero, b₃, counted, titled⟩ := state_t_bind _ _ _ _ _ ran
  obtain ⟨table, isTable⟩ := list_bytes_ledger handled counted rows columns
  have filled : (List.replicate (rows + 1) (ledgerEntry (columns + 1))).isEmpty = false := rfl
  have body : ∃ result, bodyBytes (ledger (rows + 1) (columns + 1)) [] [] {} = .ok result := by
    rw [body_bytes_ledger, state_t_bind_ok _ _ _ _ _ (index_bytes_ok isName), bootstrap_attribute_eq, filled,
      if_neg Bool.false_ne_true, single, bind_assoc, state_t_bind_ok _ _ _ _ _ isTable, named, bind_assoc,
      bind_assoc, state_t_bind_ok _ _ _ _ _ titled]
    exact ⟨_, rfl⟩
  obtain ⟨⟨body, b⟩, isBody⟩ := body
  change ∃ bytes, (bodyBytes (ledger (rows + 1) (columns + 1)) [] [] {} >>= _) = .ok bytes
  rw [isBody]
  exact ⟨_, rfl⟩

theorem keeps_ledger [Libraries] (rows columns : Nat) (version : UInt16) (fewRows : rows + 1 ≤ 65535)
    (fewColumns : columns ≤ 65535) (outgrown : 2 ^ 32 ∣ 2 + (rows + 1) * (4 + 2 * columns)) :
    Keeps (bodyBytes (ledger (rows + 1) columns) [] []) fun pool bytes =>
      Fails (readBody version pool) bytes (.truncated 0) := by
  have entries : ∀ b ∈ List.replicate (rows + 1) (ledgerEntry columns), b = ledgerEntry columns :=
    fun b member => List.eq_of_mem_replicate member
  have table := keeps_bootstrap_list (List.replicate (rows + 1) (ledgerEntry columns))
    (by rwa [List.length_replicate]) (fun b member => by
      rw [entries b member, ledgerEntry, List.length_replicate]
      exact fewColumns) (fun b member => by
      rw [entries b member]
      refine ⟨fun low => absurd low (by decide), fun c inside => ?_⟩
      rw [List.eq_of_mem_replicate inside]
      trivial)
  have size : bootstrapLength (List.replicate (rows + 1) (ledgerEntry columns)) =
      2 + (rows + 1) * (4 + 2 * columns) := by
    rw [bootstrapLength, List.map_replicate, List.sum_replicate_nat, ledgerEntry, List.length_replicate]
  have filled : (List.replicate (rows + 1) (ledgerEntry columns)).isEmpty = false := rfl
  rw [body_bytes_ledger, bootstrap_attribute_eq, filled, if_neg Bool.false_ne_true]
  refine ((keeps_class_name "L").bind fun name => (keeps_single "BootstrapMethods" _ _ table).last _).imp ?_
  rintro pool bytes ⟨name, ⟨named, _⟩, _, ⟨index, body, rfl, isName, _, length⟩, rfl⟩
  rw [size] at length
  have attributes := attribute_outgrown pool ⟨"L", none, [], none, ⟨0x0020⟩, version, [], []⟩
    (takeClassAttribute pool) "BootstrapMethods" index body (.truncated 0) isName (length ▸ outgrown) rfl
  have nothing {α : Type} (reader : Reader α) : Reader.Reads (Reader.listOf reader) (Bytes.count16 0) [] :=
    (Reader.reads_u16 0).last (Reader.reads_pure _)
  refine reads_fails (Reader.reads_u16 _) (reads_fails named (reads_fails (Reader.reads_u16 0) ?_))
  change Fails _ ([] ++ _) _
  exact reads_fails (Reader.reads_lift _ none rfl) (reads_fails (nothing _) (reads_fails (nothing _)
    (reads_fails (nothing _) (fails_bind attributes _))))

theorem decode_ledger [Libraries] (rows columns : Nat) (fewRows : rows + 1 ≤ 65535)
    (fewColumns : columns + 1 ≤ 65535) (outgrown : 2 ^ 32 ∣ 2 + (rows + 1) * (4 + 2 * (columns + 1))) :
    ∃ bytes, encode (office (rows + 1) (columns + 1)) ⟨1⟩ = .ok bytes ∧
      (Libraries.classFileFault? bytes = none → decode bytes false = .error (.truncated 0)) := by
  obtain ⟨bytes, written⟩ := encode_ledger rows columns
  refine ⟨bytes, written, fun accepted => ?_⟩
  obtain ⟨body, b, ran, isBytes⟩ := encode_parts _ _ (ledger (rows + 1) (columns + 1)) bytes rfl written
  have keeps := keeps_ledger rows (columns + 1)
    (versionOf (office (rows + 1) (columns + 1)) (ledger (rows + 1) (columns + 1))) fewRows fewColumns outgrown
  have valid := (keeps.growing {} b body ran).valid PoolBuilder.valid_empty
  have fails := keeps.promises {} b body PoolBuilder.valid_empty ran b (.refl b)
  have parsed : parse (readClass false) bytes = .error (.truncated 0) := by
    refine parse_of_fails _ _ _ ?_
    rw [read_class_eq, isBytes]
    simp only [List.append_assoc]
    refine reads_fails (Reader.reads_u32 magic) ?_
    rw [if_neg (not_not_intro rfl)]
    exact reads_fails (Reader.reads_u16 0) (reads_fails (Reader.reads_u16 _)
      (reads_fails (PoolBuilder.reads_pool b valid) fails))
  rw [decode, accepted, parsed]
  rfl

-- Two locals with one start and one slot, of which the second has a generic type.
def twins : Method where
  owner := ⟨1⟩
  name := "m"
  descriptor := "()V"
  signature := none
  access := ⟨8⟩
  kind := .method
  exceptions := []
  annotations := []
  code := ⟨[⟨⟨0⟩, Opcode.label, .label ⟨0⟩⟩, ⟨⟨1⟩, Opcode.nop, .simple⟩,
    ⟨⟨2⟩, Opcode.label, .label ⟨1⟩⟩, ⟨⟨3⟩, Opcode.returnVoid, .simple⟩]⟩
  locals := [⟨"a", "LA;", none, ⟨0⟩, ⟨1⟩, 0, .empty⟩, ⟨"b", "LA;", some "TT;", ⟨0⟩, ⟨1⟩, 0, .empty⟩]

def nursery : Class where
  name := "T"
  superName := none
  interfaces := []
  signature := none
  access := ⟨0x0020⟩
  version := 50
  bootstrapMethods := []
  annotations := []
  methods := [⟨2⟩]

def home : Program where
  classes := ⟨[(⟨1⟩, nursery)]⟩
  methods := ⟨[(⟨2⟩, twins)]⟩

def localTypes (events : List ClassEvent) : List (String × Option String) :=
  events.filterMap fun
    | .localVariable v => some (v.name, v.signature)
    | _ => none

theorem local_types_told (body : Code.Body) (m : Method) (stack slots : Option UInt16) :
    localTypes (.method (methodDecl m) :: body.events ++ [.methodEnd stack slots]) =
      body.locals.map fun v => (v.name, v.signature) := by
  simp [localTypes, Code.Body.events]

theorem local_types_class (p : Program) (c : Class) (told : List (List ClassEvent)) :
    localTypes (classEvents p c told) = (told.map localTypes).flatten := by
  have each : localTypes told.flatten = (told.map localTypes).flatten := List.filterMap_flatten
  simpa [localTypes, classEvents] using each

theorem BodyRead.local_types [Libraries] {m : Method} {qualified : String} {pool : Pool} {parts : CodeParts}
    {body : Code.Body} (read : BodyRead m qualified pool parts body) :
    body.locals.map (fun v => (v.name, v.signature)) =
      (retyped (codeContext m qualified) parts.layout m.locals).map fun v => (v.name, v.signature) := by
  have same := congrArg (fun (p : Code.Plan) => p.locals.map fun v => (v.name, v.signature)) read.plan
  simp only [Code.Body.plan, CodeParts.plan, List.map_map] at same
  exact same

theorem retyped_twins (c : Assembler.Context) (layout : Assembler.Layout) :
    (retyped c layout twins.locals).map (fun v => (v.name, v.signature)) =
      [("a", some "TT;"), ("b", none)] := by
  have fits : assignSignature (rawUntyped c layout twins.locals)
      ⟨(rawLocal c layout ⟨"b", "LA;", some "TT;", ⟨0⟩, ⟨1⟩, 0, .empty⟩).start, 0, "TT;"⟩ =
      [{ rawLocal c layout ⟨"a", "LA;", none, ⟨0⟩, ⟨1⟩, 0, .empty⟩ with signature := some "TT;" },
        { rawLocal c layout ⟨"b", "LA;", none, ⟨0⟩, ⟨1⟩, 0, .empty⟩ with signature := none }] :=
    if_pos ⟨rfl, rfl⟩
  change (List.zipWith _ _ (assignSignature _ _)).map _ = _
  rw [fits]
  rfl

theorem fits_nursery : ClassFits nursery (liveFields home nursery) (liveMethods home nursery) where
  interfaces := by decide
  fieldCount := by decide
  methodCount := by decide
  fields := fun _ member => (List.not_mem_nil member).elim
  methods := by
    intro m member
    cases List.mem_singleton.mp member
    exact ⟨⟨by decide +kernel, by decide +kernel⟩, by decide, by decide, by decide,
      ⟨by decide, by decide, by decide⟩⟩
  annotations := ⟨by decide, by decide, by decide⟩
  bootstrap := ⟨by decide, by decide, fun _ member => (List.not_mem_nil member).elim, by decide⟩

-- A class within all counts whose table of bootstrap methods takes 2^33 bytes is not read, whatever is
-- thought of the file; and of two locals with one start and one slot the first gets the type of the second.
theorem class_read_otherwise :
    ((ledger 65535 65535).bootstrapMethods.length ≤ 65535 ∧
      (∀ b ∈ (ledger 65535 65535).bootstrapMethods, b.arguments.length ≤ 65535) ∧
      ∀ [Libraries], ∃ bytes, encode (office 65535 65535) ⟨1⟩ = .ok bytes ∧
        (Libraries.classFileFault? bytes = none → decode bytes false = .error (.truncated 0))) ∧
    ClassFits nursery (liveFields home nursery) (liveMethods home nursery) ∧
    liveMethods home nursery = [twins] ∧
    twins.locals.map (fun v => (v.name, v.signature)) = [("a", none), ("b", some "TT;")] ∧
    ∃ bytes decoded, encode home ⟨1⟩ = .ok bytes ∧ Libraries.classFileFault? bytes = none ∧
      decode bytes false = .ok decoded ∧
      localTypes decoded.value.events = [("a", some "TT;"), ("b", none)] := by
  have outgrown : 2 ^ 32 ∣ 2 + (65534 + 1) * (4 + 2 * (65534 + 1)) := by decide
  refine ⟨⟨Nat.le_of_eq List.length_replicate, ?_, ?_⟩, fits_nursery, rfl, rfl, ?_⟩
  · intro b member
    rw [List.eq_of_mem_replicate member]
    exact Nat.le_of_eq List.length_replicate
  · intro _
    exact decode_ledger 65534 65534 (by decide) (by decide) outgrown
  · obtain ⟨bytes, written, valid⟩ :=
      except_shown (encode home ⟨1⟩) Libraries.classFileFault? none (by decide +kernel)
    obtain ⟨pool, told, decoded, each⟩ := decode_written home ⟨1⟩ nursery bytes rfl fits_nursery written valid
    refine ⟨bytes, _, written, valid, decoded, ?_⟩
    cases each with
    | cons read none =>
        cases none
        cases read with
        | bodiless empty => cases empty
        | body filled parts body read =>
            calc localTypes (classEvents home nursery [_])
              _ = localTypes _ := by rw [local_types_class, List.map_singleton, List.flatten_singleton]
              _ = body.locals.map fun v => (v.name, v.signature) := local_types_told body twins _ _
              _ = _ := read.local_types
              _ = [("a", some "TT;"), ("b", none)] := retyped_twins _ _

end Outgrown

end Read

end ClassFile

namespace ClassFile

-- The lists that stand behind a count of two bytes.
inductive Listing
  | interfaces
  | fields
  | methods
  | attributes
  | exceptions
  | annotations
  | values
  | bootstrapMethods
  | arguments
  | ranges
  | locals
  | signatures
  deriving DecidableEq, Repr

-- A count as it is written, and how many rows stand behind it.
structure Count where
  listing : Listing
  written : UInt16
  rows : Nat
  deriving DecidableEq, Repr

-- The count that two bytes have of a list.
def Count.of (list : Listing × Nat) : Count := ⟨list.1, UInt16.ofNat list.2, list.2⟩

structure Table (α : Type) where
  count : UInt16
  rows : List α

namespace Table

variable {α : Type}

def write (row : α → List UInt8) (t : Table α) : List UInt8 := Bytes.u16 t.count ++ t.rows.flatMap row

-- The counts that stand in a table, its own first.
def counts (listing : Listing) (inside : α → List Count) (t : Table α) : List Count :=
  ⟨listing, t.count, t.rows.length⟩ :: t.rows.flatMap inside

end Table

-- Rows without counts of their own.
def noCounts {α : Type} (_ : α) : List Count := []

structure ValueRow where
  name : UInt16
  tag : UInt8
  index : UInt16

structure AnnotationRow where
  descriptor : UInt16
  values : Table ValueRow

structure BootstrapRow where
  handle : UInt16
  arguments : Table UInt16

structure RangeRow where
  start : UInt16
  stop : UInt16
  handler : UInt16
  catchType : UInt16

structure LocalRow where
  start : UInt16
  length : UInt16
  name : UInt16
  type : UInt16
  slot : UInt16

-- An attribute of a body: a table of local variables, or of their signatures.
structure LocalTable where
  name : UInt16
  listing : Listing
  table : Table LocalRow

structure CodeRow where
  maxStack : UInt16
  maxLocals : UInt16
  code : List UInt8
  ranges : Table RangeRow
  attributes : Table LocalTable

inductive AttributeBody
  | index (value : UInt16)
  | code (body : CodeRow)
  | exceptions (names : Table UInt16)
  | annotations (table : Table AnnotationRow)
  | bootstrapMethods (methods : Table BootstrapRow)

structure AttributeRow where
  name : UInt16
  body : AttributeBody

structure MemberRow where
  access : UInt16
  name : UInt16
  descriptor : UInt16
  attributes : Table AttributeRow

-- A class file behind its version and its pool.
structure FileBody where
  access : UInt16
  name : UInt16
  superName : UInt16
  interfaces : Table UInt16
  fields : Table MemberRow
  methods : Table MemberRow
  attributes : Table AttributeRow

section Writing

def ValueRow.write (r : ValueRow) : List UInt8 := Bytes.u16 r.name ++ r.tag :: Bytes.u16 r.index

def AnnotationRow.write (r : AnnotationRow) : List UInt8 :=
  Bytes.u16 r.descriptor ++ r.values.write ValueRow.write

def BootstrapRow.write (r : BootstrapRow) : List UInt8 :=
  Bytes.u16 r.handle ++ r.arguments.write Bytes.u16

def RangeRow.write (r : RangeRow) : List UInt8 :=
  Bytes.u16 r.start ++ Bytes.u16 r.stop ++ Bytes.u16 r.handler ++ Bytes.u16 r.catchType

def LocalRow.write (r : LocalRow) : List UInt8 :=
  Bytes.u16 r.start ++ Bytes.u16 r.length ++ Bytes.u16 r.name ++ Bytes.u16 r.type ++ Bytes.u16 r.slot

-- An attribute has the length of its body in front of it.
def attributeRow (name : UInt16) (body : List UInt8) : List UInt8 :=
  Bytes.u16 name ++ Bytes.count32 body.length ++ body

def LocalTable.write (t : LocalTable) : List UInt8 := attributeRow t.name (t.table.write LocalRow.write)

def CodeRow.write (r : CodeRow) : List UInt8 :=
  Bytes.u16 r.maxStack ++ Bytes.u16 r.maxLocals ++ Bytes.count32 r.code.length ++ r.code ++
    r.ranges.write RangeRow.write ++ r.attributes.write LocalTable.write

def AttributeBody.write : AttributeBody → List UInt8
  | .index value => Bytes.u16 value
  | .code body => body.write
  | .exceptions names => names.write Bytes.u16
  | .annotations table => table.write AnnotationRow.write
  | .bootstrapMethods methods => methods.write BootstrapRow.write

def AttributeRow.write (r : AttributeRow) : List UInt8 := attributeRow r.name r.body.write

def MemberRow.write (r : MemberRow) : List UInt8 :=
  Bytes.u16 r.access ++ Bytes.u16 r.name ++ Bytes.u16 r.descriptor ++
    r.attributes.write AttributeRow.write

def FileBody.write (f : FileBody) : List UInt8 :=
  Bytes.u16 f.access ++ Bytes.u16 f.name ++ Bytes.u16 f.superName ++ f.interfaces.write Bytes.u16 ++
    f.fields.write MemberRow.write ++ f.methods.write MemberRow.write ++
    f.attributes.write AttributeRow.write

end Writing

section Counting

def AnnotationRow.counts (r : AnnotationRow) : List Count := r.values.counts .values noCounts

def BootstrapRow.counts (r : BootstrapRow) : List Count := r.arguments.counts .arguments noCounts

def LocalTable.counts (t : LocalTable) : List Count := t.table.counts t.listing noCounts

def CodeRow.counts (r : CodeRow) : List Count :=
  r.ranges.counts .ranges noCounts ++ r.attributes.counts .attributes LocalTable.counts

def AttributeBody.counts : AttributeBody → List Count
  | .index _ => []
  | .code body => body.counts
  | .exceptions names => names.counts .exceptions noCounts
  | .annotations table => table.counts .annotations AnnotationRow.counts
  | .bootstrapMethods methods => methods.counts .bootstrapMethods BootstrapRow.counts

def AttributeRow.counts (r : AttributeRow) : List Count := r.body.counts

def MemberRow.counts (r : MemberRow) : List Count := r.attributes.counts .attributes AttributeRow.counts

def FileBody.counts (f : FileBody) : List Count :=
  f.interfaces.counts .interfaces noCounts ++ f.fields.counts .fields MemberRow.counts ++
    f.methods.counts .methods MemberRow.counts ++ f.attributes.counts .attributes AttributeRow.counts

end Counting

end ClassFile

-- Whatever the encoder answers is as promised.
def Gives {α : Type} (e : Encoder α) (promise : α → Prop) : Prop :=
  ∀ b b' a, e b = .ok (a, b') → promise a

namespace Gives

variable {α β : Type}

theorem pure {promise : α → Prop} (value : α) (kept : promise value) : Gives (Pure.pure value) promise := by
  intro b b' a done
  cases done
  exact kept

theorem bind {x : Encoder α} {f : α → Encoder β} {between : α → Prop} {promise : β → Prop}
    (first : Gives x between) (later : ∀ a, between a → Gives (f a) promise) : Gives (x >>= f) promise := by
  intro b b'' r done
  obtain ⟨a, b', ran, rest⟩ := state_t_bind x f b b'' r done
  exact later a (first b b' a ran) b' b'' r rest

theorem imp {e : Encoder α} {promise weaker : α → Prop} (gives : Gives e promise)
    (implies : ∀ a, promise a → weaker a) : Gives e weaker :=
  fun b b' a done => implies a (gives b b' a done)

theorem map_m {f : α → Encoder β} {promise : α → β → Prop} (items : List α)
    (each : ∀ a, Gives (f a) (promise a)) :
    Gives (items.mapM f) fun results => List.Forall₂ promise items results := by
  induction items with
  | nil => exact pure [] .nil
  | cons a items ih =>
      rw [List.mapM_cons]
      exact (each a).bind fun r isFirst => ih.bind fun rs isRest => pure (r :: rs) (.cons isFirst isRest)

end Gives

namespace ClassFile

theorem Table.exists_rows {α β : Type} (listing : Listing) (row : β → List UInt8) (inside : β → List Count)
    (lists : α → List (Listing × Nat)) (items : List α) (written : List (List UInt8))
    (each : List.Forall₂ (fun a bytes => ∃ r, bytes = row r ∧ inside r = (lists a).map Count.of) items
      written) : ∃ t : Table β, Bytes.count16 items.length ++ written.flatten = t.write row ∧
        t.counts listing inside = ((listing, items.length) :: items.flatMap lists).map Count.of := by
  suffices ∃ rows : List β, rows.length = items.length ∧ written.flatten = rows.flatMap row ∧
      rows.flatMap inside = (items.flatMap lists).map Count.of by
    obtain ⟨rows, length, bytes, listed⟩ := this
    refine ⟨⟨UInt16.ofNat items.length, rows⟩, ?_, ?_⟩
    · rw [bytes]
      rfl
    · rw [Table.counts, length, listed]
      rfl
  induction each with
  | nil => exact ⟨[], rfl, rfl, rfl⟩
  | cons first _ ih =>
      obtain ⟨r, rfl, isFirst⟩ := first
      obtain ⟨rows, length, bytes, listed⟩ := ih
      refine ⟨r :: rows, congrArg Nat.succ length, ?_, ?_⟩
      · rw [List.flatten_cons, bytes, List.flatMap_cons]
      · rw [List.flatMap_cons, isFirst, listed, List.flatMap_cons, List.map_append]

theorem gives_list_bytes {α β : Type} (listing : Listing) (items : List α)
    (write : α → Encoder (List UInt8)) (row : β → List UInt8) (inside : β → List Count)
    (lists : α → List (Listing × Nat))
    (each : ∀ a, Gives (write a) fun bytes => ∃ r, bytes = row r ∧ inside r = (lists a).map Count.of) :
    Gives (listBytes items write) fun bytes => ∃ t : Table β, bytes = t.write row ∧
      t.counts listing inside = ((listing, items.length) :: items.flatMap lists).map Count.of :=
  (Gives.map_m items each).bind fun written laid =>
    .pure _ (Table.exists_rows listing row inside lists items written laid)

theorem gives_index (request : Encoder UInt16) :
    Gives (indexBytes request) fun bytes => ∃ index, bytes = Bytes.u16 index := by
  intro b b' bytes done
  obtain ⟨index, mid, _, done⟩ := state_t_bind request (fun index => pure (Bytes.u16 index)) b b' bytes done
  cases done
  exact ⟨index, rfl⟩

end ClassFile

end JvmEdit
