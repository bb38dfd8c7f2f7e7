import JvmEdit.Proofs.ClassFile.Declarations
import JvmEdit.Proofs.ClassFile.RoundTrip
set_option autoImplicit false

namespace JvmEdit

namespace ClassFile

open Assembler (Context)

section Retyped

variable (c : Context) (layout : Assembler.Layout)

def untyped (v : Code.RawLocal) : Code.RawLocal := { v with signature := none }

-- The locals as they are read: each generic type goes to the first local it fits.
def readLocals (locals : List LocalVariable) : List Code.RawLocal :=
  (rawSignatures c layout locals).foldl assignSignature (rawUntyped c layout locals)

def retyped (locals : List LocalVariable) : List LocalVariable :=
  List.zipWith (fun v raw => { v with signature := raw.signature }) locals (readLocals c layout locals)

theorem untyped_assign_signature (s : LocalSignature) (locals : List Code.RawLocal) :
    (assignSignature locals s).map untyped = locals.map untyped := by
  induction locals with
  | nil => rfl
  | cons v locals ih =>
      by_cases fits : v.start = s.start ∧ v.slot = s.slot
      · rw [assignSignature, if_pos fits]
        rfl
      · rw [assignSignature, if_neg fits, List.map_cons, ih, List.map_cons]

theorem untyped_read_locals (locals : List LocalVariable) : (readLocals c layout locals).map untyped =
    locals.map fun v => untyped (rawLocal c layout v) := by
  have folded : ∀ (signatures : List LocalSignature) (raws : List Code.RawLocal),
      (signatures.foldl assignSignature raws).map untyped = raws.map untyped := by
    intro signatures
    induction signatures with
    | nil => exact fun _ => rfl
    | cons s signatures ih =>
        intro raws
        rw [List.foldl_cons, ih, untyped_assign_signature]
  rw [readLocals, folded, rawUntyped, List.map_map]
  rfl

theorem map_retyped (locals : List LocalVariable) :
    (retyped c layout locals).map (rawLocal c layout) = readLocals c layout locals := by
  have zipped : ∀ (locals : List LocalVariable) (raws : List Code.RawLocal),
      raws.map untyped = locals.map (fun v => untyped (rawLocal c layout v)) →
      (List.zipWith (fun v (raw : Code.RawLocal) => { v with signature := raw.signature })
        locals raws).map (rawLocal c layout) = raws := by
    intro locals
    induction locals with
    | nil =>
        intro raws same
        exact (List.map_eq_nil_iff.mp same).symm
    | cons v locals ih =>
        intro raws same
        cases raws with
        | nil => cases same
        | cons raw raws =>
            obtain ⟨first, later⟩ := List.cons.inj same
            have typed : rawLocal c layout { v with signature := raw.signature } = raw :=
              congrArg (fun (plain : Code.RawLocal) => { plain with signature := raw.signature })
                first.symm
            rw [List.zipWith_cons_cons, List.map_cons, ih raws later, typed]
  exact zipped locals _ (untyped_read_locals c layout locals)

theorem retyped_separate (locals : List LocalVariable) (separate : Separate c layout locals) :
    retyped c layout locals = locals := by
  rw [retyped, readLocals, foldl_assign_signature c layout locals separate, List.zipWith_map_right,
    List.zipWith_self]
  exact List.map_id locals

theorem labels_retyped (locals : List LocalVariable) :
    (retyped c layout locals).map (fun v => (v.name, v.descriptor, v.slot)) =
      locals.map fun v => (v.name, v.descriptor, v.slot) := by
  have same := congrArg (List.map fun (v : Code.RawLocal) => (v.name, v.descriptor, v.slot))
    (untyped_read_locals c layout locals)
  rw [← map_retyped, List.map_map, List.map_map, List.map_map] at same
  exact same

end Retyped

section Code

variable (m : Method) (qualified : String)

-- The code attribute before its instructions are read.
def rawCode [Libraries] (parts : CodeParts) : RawCode where
  maxStack := maxStack m
  maxLocals := maxLocals m
  bytes := parts.code
  ranges := (m.tryRanges.filter (isKept (codeContext m qualified) parts.layout)).map
    (rawRange (codeContext m qualified) parts.layout)
  locals := readLocals (codeContext m qualified) parts.layout m.locals

-- A written body, part by part, and what is read back in its place.
structure BodyRead [Libraries] (pool : Pool) (parts : CodeParts) (body : Code.Body) : Prop where
  lines : List.Forall₂ (fun i (line : Assembler.Line) => line.opcode = i.opcode ∧
    line.operand = i.operand ∧ line.Resolved pool) m.code.toList parts.lines
  layout : (codeContext m qualified).layout parts.lines = .ok parts.layout
  code : (codeContext m qualified).emit parts.layout parts.lines = .ok parts.code
  decoded : Code.decode parts.code pool (rawCode m qualified parts).ranges
    (rawCode m qualified parts).locals = .ok body
  tidy : body.Tidy
  plan : body.plan = parts.plan (codeContext m qualified)
    { m with locals := retyped (codeContext m qualified) parts.layout m.locals }
  marked : ∀ label ∈ parts.labels (codeContext m qualified) m,
    ∃ position, Flow.Marks m.code.toList position label
  stands : ∀ position label, Flow.Marks m.code.toList position label →
    (codeContext m qualified).place parts.layout label = parts.layout.offset position ∧
      (codeContext m qualified).spot parts.lines parts.layout.far label =
        ⟨Assembler.ordinal parts.lines parts.layout.far position⟩
  catches : body.ranges.map (·.catchType) =
    (m.tryRanges.filter (isKept (codeContext m qualified) parts.layout)).map (·.catchType)
  declared : body.locals.map (fun v => (v.name, v.descriptor, v.slot)) =
    m.locals.map fun v => (v.name, v.descriptor, v.slot)
  types : Separate (codeContext m qualified) parts.layout m.locals →
    body.locals.map (·.signature) = m.locals.map (·.signature)

theorem keeps_lines (code : List Instruction) (shaped : ∀ i ∈ code, Code.Shaped i.opcode i.operand) :
    Keeps (Assembler.lines code) fun pool lines => List.Forall₂ (fun i (line : Assembler.Line) =>
      line.opcode = i.opcode ∧ line.operand = i.operand ∧ line.Resolved pool) code lines where
  growing := Assembler.growing_lines_onto [] code
  promises := by
    intro b b' lines valid done b'' grown
    obtain ⟨more, rfl, each⟩ := Assembler.lines_onto_spec [] code b b' lines valid shaped done
    exact each.imp fun _ _ same => ⟨same.1, same.2.1, same.2.2 b'' grown⟩

theorem length_range_bytes (c : Context) (layout : Assembler.Layout) (range : TryRange)
    (b b' : PoolBuilder) (rows : List (List UInt8))
    (done : rangeBytes c layout range b = .ok (rows, b')) : ∀ row ∈ rows, row.length = 8 := by
  rw [range_bytes_eq] at done
  obtain ⟨start, b₁, _, done⟩ := state_t_bind _ _ b b' rows done
  obtain ⟨stop, b₂, _, done⟩ := state_t_bind _ _ b₁ b' rows done
  intro row member
  by_cases empty : stop ≤ start
  · rw [if_pos empty] at done
    cases done
    cases member
  · rw [if_neg empty] at done
    obtain ⟨index, b₃, _, done⟩ := state_t_bind _ _ b₂ b' rows done
    obtain ⟨handler, b₄, _, done⟩ := state_t_bind _ _ b₃ b' rows done
    cases done
    cases List.mem_singleton.mp member
    rfl

theorem keeps_ranges (c : Context) (layout : Assembler.Layout) (ranges : List TryRange) :
    Keeps (ranges.mapM (rangeBytes c layout)) fun pool rows =>
      (∀ row ∈ rows.flatten, row.length = 8) ∧ ((∀ label, c.place layout label ≤ 65535) →
        List.Forall₂ (fun range rows => RangeRows c layout range pool rows) ranges rows) := by
  have each : ∀ range ∈ ranges, Keeps (rangeBytes c layout range) fun pool rows =>
      (∀ row ∈ rows, row.length = 8) ∧ ((∀ label, c.place layout label ≤ 65535) →
        RangeRows c layout range pool rows) := by
    intro range _
    refine ⟨growing_range_bytes c layout range, fun b b' rows valid done b'' grown => ⟨?_, ?_⟩⟩
    · exact length_range_bytes c layout range b b' rows done
    · exact fun small => promises_range c layout small range b b' rows valid done b'' grown
  refine (Keeps.map_m ranges each).imp ?_
  intro pool rows all
  refine ⟨?_, fun small => all.imp fun _ _ both => both.2 small⟩
  intro row member
  obtain ⟨group, inside, member⟩ := List.mem_flatten.mp member
  exact forall₂_left all.flip (fun _ _ both => both.1) group inside row member

theorem growing_local_attributes (c : Context) (layout : Assembler.Layout) (locals : List LocalVariable) :
    Growing (localAttributes c layout locals) := by
  intro b b' attributes done
  cases none : locals.isEmpty with
  | true =>
      rw [List.isEmpty_iff] at none
      subst none
      cases done
      exact .refl b
  | false =>
      rw [local_attributes_eq c layout locals none
        (uncountable_of_done c layout locals b b' attributes done)] at done
      refine ((Growing.map_m _ locals (growing_local_bytes c layout)).bind fun rows =>
        (growing_named _ _).bind fun table => ?_) b b' attributes done
      split
      · exact .pure _
      · exact (growing_named _ _).bind fun _ => .pure _

theorem keeps_locals (c : Context) (layout : Assembler.Layout) (locals : List LocalVariable) :
    Keeps (localAttributes c layout locals) fun pool attributes => ∃ rows,
      List.Forall₂ (fun v row => LocalRows c layout v pool row) locals rows ∧
        ∀ parts : CodeParts, parts.locals = rows →
          List.Forall₂ (Holds pool) parts.tables attributes := by
  refine ⟨growing_local_attributes c layout locals, fun b b' attributes valid done b'' grown => ?_⟩
  obtain ⟨_, rows, mid, ran, grownTables, holds⟩ :=
    local_attributes_parts c layout locals b b' attributes valid done
  refine ⟨rows, ?_, holds b'' grown⟩
  exact promises_map_m _ _ locals (growing_local_bytes c layout) (promises_local c layout) b mid rows valid
    ran b'' (grownTables.trans grown)

theorem length_attribute_bytes (pool : Pool) (tables : List (String × List UInt8))
    (attributes : List Attribute) (holds : List.Forall₂ (Holds pool) tables attributes) :
    (attributeBytes attributes).length = 2 + (tables.map fun table => 6 + table.2.length).sum := by
  rw [attributeBytes, List.length_append, Bytes.length_count16]
  congr 1
  induction holds with
  | nil => rfl
  | cons first _ ih =>
      rw [List.flatMap_cons, List.length_append, ih, List.map_cons, List.sum_cons]
      simp only [List.length_append, Bytes.length_u16, Bytes.length_count32, first.2]

theorem length_tables_le (c : Context) (layout : Assembler.Layout) (pool : Pool)
    (locals : List LocalVariable) (parts : CodeParts)
    (read : List.Forall₂ (fun v rows => LocalRows c layout v pool rows) locals parts.locals) :
    (parts.tables.map fun table => 6 + table.2.length).sum ≤ 16 + 20 * parts.locals.length := by
  obtain ⟨plain, typed⟩ := length_rows c layout pool locals parts.locals read
  unfold CodeParts.tables
  dsimp only
  split
  · exact Nat.zero_le _
  · rw [List.map_cons, List.sum_cons, List.length_append, Bytes.length_count16, plain]
    split
    · rw [List.map_nil, List.sum_nil]
      omega
    · rw [List.map_cons, List.sum_cons, List.length_append, Bytes.length_count16, List.map_nil,
        List.sum_nil]
      omega

structure MethodFits : Prop where
  shaped : DecoderShaped m
  exceptions : m.exceptions.length ≤ 65535
  ranges : m.tryRanges.length ≤ 65535
  locals : m.locals.length ≤ 65535
  annotations : AnnotationsFit m.annotations

theorem keeps_code [Libraries] (fits : MethodFits m) : Keeps (codeBytes m qualified) fun pool bytes =>
    bytes.length < 2 ^ 32 ∧ ∃ parts body, BodyRead m qualified pool parts body ∧
      Reader.Reads (readCode pool false) bytes (rawCode m qualified parts) := by
  rw [code_bytes_eq]
  refine ((keeps_lines _ fits.shaped.shaped).bind fun lines => (Keeps.lift _).bind fun layout =>
    (Keeps.lift _).bind fun code => (keeps_ranges _ layout _).bind fun rows =>
      (keeps_locals _ layout _).last _).imp ?_
  rintro pool bytes ⟨lines, linesRead, layout, isLayout, code, isCode, rows, ⟨eight, ranges⟩, attributes,
    ⟨locals, localsRead, holds⟩, rfl⟩
  let c := codeContext m qualified
  let parts : CodeParts := ⟨lines, layout, code, rows.flatten, locals⟩
  have laid := Assembler.laid_out_layout c lines layout isLayout
  have rangesRead := ranges laid.place_small
  have kept := rows_kept c layout pool m.tryRanges rows rangesRead
  have tables := holds parts rfl
  have known := knows_parts m qualified parts pool rows isLayout isCode rangesRead localsRead
  obtain ⟨body, isBody, short, tidy, plan⟩ := read_back_parts
    { m with locals := retyped c layout m.locals } qualified
    ⟨fits.shaped.shaped, fits.shaped.unique⟩ parts pool linesRead isLayout isCode
  have decoded : Code.decode parts.code pool (rawCode m qualified parts).ranges
      (rawCode m qualified parts).locals = .ok body := by
    have isLocals : (rawCode m qualified parts).locals = _ := (map_retyped c layout m.locals).symm
    rw [isLocals]
    exact isBody
  have fewRanges : parts.ranges.length ≤ 65535 := by
    have same : (m.tryRanges.filter (isKept c layout)).length = parts.ranges.length := kept.length_eq
    rw [← same]
    exact Nat.le_trans (List.length_filter_le ..) fits.ranges
  have fewLocals : parts.locals.length ≤ 65535 := localsRead.length_eq ▸ fits.locals
  refine ⟨?_, parts, body, ⟨linesRead, isLayout, isCode, decoded, tidy, plan, ?_,
    stands_marked m qualified fits.shaped parts, ?_, ?_, ?_⟩, ?_⟩
  · have wide : rows.flatten.flatten.length = 8 * rows.flatten.length := by
      rw [List.length_flatten, List.map_congr_left eight, List.map_const', List.sum_replicate_nat,
        Nat.mul_comm]
    have narrow := length_tables_le c layout pool m.locals parts localsRead
    have total := length_attribute_bytes pool parts.tables attributes tables
    have shortCode : code.length ≤ 65535 := short
    have fewRows : rows.flatten.length ≤ 65535 := fewRanges
    simp only [List.length_append, Bytes.length_u16, Bytes.length_count16, Bytes.length_count32, wide,
      total]
    omega
  · intro label member
    obtain ⟨position, found⟩ := known label member
    exact ⟨position, (bounded_labels m qualified label position found).1⟩
  · have same := congrArg (fun (p : Code.Plan) => p.ranges.map (·.catchType)) plan
    simp only [Code.Body.plan, CodeParts.plan, List.map_map] at same
    exact same
  · have same := congrArg
      (fun (p : Code.Plan) => p.locals.map fun v => (v.name, v.descriptor, v.slot)) plan
    rw [← labels_retyped c layout]
    simp only [Code.Body.plan, CodeParts.plan, List.map_map] at same
    exact same
  · intro separate
    have same := congrArg (fun (p : Code.Plan) => p.locals.map (·.signature)) plan
    have unchanged := retyped_separate c layout m.locals separate
    rw [unchanged] at same
    simp only [Code.Body.plan, CodeParts.plan, List.map_map] at same
    exact same
  · exact reads_code_parts m c layout pool parts attributes _ short fewRanges fewLocals
      (List.forall₂_map_left_iff.mpr kept) localsRead tables

end Code

section Methods

def methodDecl (m : Method) : MethodDecl :=
  ⟨m.name, m.descriptor, m.signature, m.access, m.exceptions, m.annotations⟩

-- The name by which faults of a body are reported.
def qualified (className : String) (m : Method) : String := className ++ "." ++ m.name ++ m.descriptor

def codeAttribute [Libraries] (className : String) (m : Method) : Encoder (List Attribute) :=
  if m.code.isEmpty then pure [] else single "Code" (codeBytes m (qualified className m))

def exceptionsAttribute (m : Method) : Encoder (List Attribute) :=
  if m.exceptions.isEmpty then pure []
  else single "Exceptions" (listBytes m.exceptions fun name => indexBytes (PoolBuilder.className name))

theorem method_bytes_eq [Libraries] (className : String) (m : Method) : methodBytes className m = (do
    let name ← indexBytes (PoolBuilder.utf8 m.name)
    let descriptor ← indexBytes (PoolBuilder.utf8 m.descriptor)
    let code ← codeAttribute className m
    let exceptions ← exceptionsAttribute m
    let signature ← signatureAttribute m.signature
    let annotations ← annotationAttribute m.annotations
    pure (Bytes.u16 m.access.bits ++ name ++ descriptor ++
      attributeBytes (code ++ exceptions ++ signature ++ annotations))) := by
  unfold methodBytes codeAttribute exceptionsAttribute single qualified
  cases m.code.isEmpty <;> cases m.exceptions.isEmpty <;>
    simp only [Bool.false_eq_true, if_false, if_true, bind_assoc, pure_bind]

-- The code attribute of a method with a body, and none of one without.
inductive CodeRead [Libraries] (className : String) (m : Method) (pool : Pool) : Option RawCode → Prop
  | bodiless (empty : m.code.isEmpty = true) : CodeRead className m pool none
  | body (filled : m.code.isEmpty = false) (parts : CodeParts) (body : Code.Body)
      (read : BodyRead m (qualified className m) pool parts body) :
      CodeRead className m pool (some (rawCode m (qualified className m) parts))

theorem keeps_code_attribute [Libraries] (className : String) (m : Method) (fits : MethodFits m) :
    Keeps (codeAttribute className m) fun pool attributes => ∃ code,
      CodeRead className m pool code ∧
        Stored "Code" (fun pool => parse (readCode pool false)) code pool attributes := by
  unfold codeAttribute
  cases empty : m.code.isEmpty with
  | true =>
      refine (keeps_none "Code" fun pool => parse (readCode pool false)).imp ?_
      exact fun pool attributes stored => ⟨none, .bodiless empty, stored⟩
  | false =>
      refine (keeps_single "Code" _ _ (keeps_code m (qualified className m) fits)).imp ?_
      rintro pool attributes ⟨index, body, isAttribute, isName, short, parts, read, isRead, reads⟩
      exact ⟨_, .body empty parts read isRead, index, body, isAttribute, isName, short,
        parse_of_reads _ _ _ reads⟩

theorem keeps_exceptions (m : Method) (few : m.exceptions.length ≤ 65535) :
    Keeps (exceptionsAttribute m) (Stored "Exceptions"
      (fun pool => parse (Reader.listOf (readClassName pool))) (listed m.exceptions)) := by
  have names := keeps_names m.exceptions few
  exact keeps_listed _ _ _ _ (keeps_stored _ _ _ _ _ (by omega) names)

def takeMethodAttribute (pool : Pool) (method : RawMethod) (name : String) (body : List UInt8) :
    Except DecodeError RawMethod :=
  match name with
  | "Code" => do
      let code ← parse (readCode pool false) body
      return { method with code := some code }
  | "Exceptions" => do
      let more ← parse (Reader.listOf (readClassName pool)) body
      return { method with decl.exceptions := method.decl.exceptions ++ more }
  | "Signature" => do
      let signature ← parse (readUtf8 pool) body
      return { method with decl.signature := some signature }
  | "RuntimeVisibleAnnotations" => do
      let annotations ← parseAnnotations pool body
      return { method with decl.annotations := annotations }
  | _ => return method

theorem read_method_eq (pool : Pool) : readMethod pool false = (do
    let access ← Reader.u16
    let name ← readUtf8 pool
    let descriptor ← readUtf8 pool
    readAttributes pool ⟨⟨name, descriptor, none, ⟨access⟩, [], []⟩, none⟩
      (takeMethodAttribute pool)) := rfl

theorem takes_method (m : Method) (pool : Pool) (raw : Option RawCode)
    (code exceptions signature annotations : List Attribute)
    (coded : Stored "Code" (fun pool => parse (readCode pool false)) raw pool code)
    (thrown : Stored "Exceptions" (fun pool => parse (Reader.listOf (readClassName pool)))
      (listed m.exceptions) pool exceptions)
    (signed : Stored "Signature" (fun pool => parse (readUtf8 pool)) m.signature pool signature)
    (annotated : Stored "RuntimeVisibleAnnotations" parseAnnotations (listed m.annotations) pool
      annotations) :
    Takes pool (takeMethodAttribute pool) 4 (code ++ exceptions ++ signature ++ annotations)
      ⟨⟨m.name, m.descriptor, none, m.access, [], []⟩, none⟩ ⟨methodDecl m, raw⟩ := by
  have first := takes_stored (takeMethodAttribute pool)
    (fun c (method : RawMethod) => { method with code := some c }) coded (fun _ _ => rfl)
  have second := takes_stored (takeMethodAttribute pool)
    (fun e (method : RawMethod) => { method with decl.exceptions := method.decl.exceptions ++ e }) thrown
    (fun _ _ => rfl)
  have third := takes_stored (takeMethodAttribute pool)
    (fun s (method : RawMethod) => { method with decl.signature := some s }) signed (fun _ _ => rfl)
  have fourth := takes_stored (takeMethodAttribute pool)
    (fun a (method : RawMethod) => { method with decl.annotations := a }) annotated (fun _ _ => rfl)
  have all := (((first ⟨⟨m.name, m.descriptor, none, m.access, [], []⟩, none⟩).append
    (second _)).append (third _)).append (fourth _)
  convert all using 1
  unfold methodDecl listed
  cases raw <;> cases m.exceptions <;> cases m.signature <;> cases m.annotations <;> rfl

theorem keeps_method [Libraries] (className : String) (m : Method) (fits : MethodFits m) :
    Keeps (methodBytes className m) fun pool bytes => ∃ code, CodeRead className m pool code ∧
      Reader.Reads (readMethod pool false) bytes ⟨methodDecl m, code⟩ := by
  rw [method_bytes_eq]
  refine ((keeps_text m.name).bind fun name => (keeps_text m.descriptor).bind fun descriptor =>
    (keeps_code_attribute className m fits).bind fun code => (keeps_exceptions m fits.exceptions).bind
      fun exceptions => (keeps_signature m.signature).bind fun signature =>
        (keeps_annotations m.annotations fits.annotations).last _).imp ?_
  rintro pool bytes ⟨name, ⟨named, _⟩, descriptor, ⟨described, _⟩, code, ⟨raw, isCode, coded⟩,
    exceptions, thrown, signature, signed, annotations, annotated, rfl⟩
  have attributes := reads_takes (takes_method m pool raw code exceptions signature annotations coded
    thrown signed annotated) (by decide)
  refine ⟨raw, isCode, ?_⟩
  rw [read_method_eq, List.append_assoc, List.append_assoc]
  exact (Reader.reads_u16 m.access.bits).bind (named.bind (described.bind attributes))

-- What a reader of the class is told of a method: what is declared of it, and the body that was
-- written, when one was.
inductive MethodRead [Libraries] (className : String) (m : Method) (pool : Pool) :
    List ClassEvent → Prop
  | bodiless (empty : m.code.isEmpty = true) :
      MethodRead className m pool [.method (methodDecl m), .methodEnd none none]
  | body (filled : m.code.isEmpty = false) (parts : CodeParts) (body : Code.Body)
      (read : BodyRead m (qualified className m) pool parts body) :
      MethodRead className m pool (.method (methodDecl m) :: body.events ++
        [.methodEnd (some (maxStack m)) (some (maxLocals m))])

theorem method_events_read [Libraries] (className reader : String) (m : Method) (pool : Pool)
    (code : Option RawCode) (isCode : CodeRead className m pool code) : ∃ events,
      methodEvents reader pool ⟨methodDecl m, code⟩ = pure events ∧
        MethodRead className m pool events := by
  cases isCode with
  | bodiless empty => exact ⟨_, rfl, .bodiless empty⟩
  | body filled parts body read =>
      refine ⟨_, ?_, .body filled parts body read⟩
      have decoded : Code.decode (rawCode m (qualified className m) parts).bytes pool _ _ = _ :=
        read.decoded
      simp only [methodEvents, decoded]
      rfl

end Methods

end ClassFile

end JvmEdit
