import JvmEdit.Libraries.Standard
import JvmEdit.Proofs.ClassFile.Features
set_option autoImplicit false

namespace JvmEdit

def PoolEntry.isInterfaceMethod : PoolEntry → Bool
  | .interfaceMethodRef .. => true
  | _ => false

def Operand.namesInterface : Operand → Bool
  | .call target => target.isInterface
  | _ => false

-- Calls that could only go to classes before version 52.
def Opcode.isDirectCall (op : Opcode) : Bool := op = Opcode.invokeStatic || op = Opcode.invokeSpecial

def Instruction.callsInterface (i : Instruction) : Bool :=
  i.opcode.isDirectCall && i.operand.namesInterface

namespace Assembler

def Line.callsInterface (pool : Pool) (line : Line) : Bool :=
  line.opcode.isDirectCall && (pool.get? line.index).any PoolEntry.isInterfaceMethod

end Assembler

theorem Keeps.after {α β : Type} {x : Encoder α} {f : α → Encoder β} {holds : Pool → β → Prop}
    (growing : Growing x) (later : ∀ a, Keeps (f a) holds) : Keeps (x >>= f) holds where
  growing := growing.bind fun a => (later a).growing
  promises := by
    intro b b' r valid done b'' grown
    obtain ⟨a, mid, ran, rest⟩ := state_t_bind x f b b' r done
    exact (later a).promises mid b' r ((growing b mid a ran).valid valid) rest b'' grown

namespace PoolBuilder

-- The index is that of a method of an interface, or of some other entry.
def Leads (isInterface : Bool) (pool : Pool) (index : UInt16) : Prop :=
  (pool.get? index).any PoolEntry.isInterfaceMethod = isInterface

theorem leads_add (item : PoolItem) (writable : item.Writable) :
    Keeps (add item) (Leads item.entry.isInterfaceMethod) where
  growing := .add item writable
  promises := by
    intro b b' index valid added b'' grown
    have held := (add_spec b b' item index valid writable added).2
    rw [Leads, get?_grown b' b'' index _ grown held]
    rfl

theorem leads_class_name (name : String) : Keeps (className name) (Leads false) :=
  .after (growing_utf8 name) fun i => leads_add (.classRef i) trivial

theorem leads_field_ref (owner name descriptor : String) :
    Keeps (fieldRef owner name descriptor) (Leads false) :=
  .after (growing_class_name owner) fun i => .after (growing_name_and_type name descriptor) fun j =>
    leads_add (.fieldRef i j) trivial

theorem leads_method_ref (owner name descriptor : String) (isInterface : Bool) :
    Keeps (methodRef owner name descriptor isInterface) (Leads isInterface) :=
  .after (growing_class_name owner) fun i => .after (growing_name_and_type name descriptor) fun j => by
    cases isInterface with
    | true => exact leads_add (.interfaceMethodRef i j) trivial
    | false => exact leads_add (.methodRef i j) trivial

theorem leads_dynamic_call (bootstrap : UInt16) (name descriptor : String) :
    Keeps (dynamicCall bootstrap name descriptor) (Leads false) :=
  .after (growing_name_and_type name descriptor) fun i => leads_add (.invokeDynamic bootstrap i) trivial

theorem leads_constant (value : Constant) : Keeps (constant value) (Leads false) := by
  cases value with
  | int value => exact leads_add (.integer value) trivial
  | float bits => exact leads_add (.float bits) trivial
  | long value => exact leads_add (.long value) trivial
  | double bits => exact leads_add (.double bits) trivial
  | string text => exact .after (growing_utf8 text) fun i => leads_add (.string i) trivial
  | classRef name => exact leads_class_name name
  | methodType descriptor =>
      exact .after (growing_utf8 descriptor) fun i => leads_add (.methodType i) trivial
  | methodHandle kind owner name descriptor isInterface =>
      rw [constant_method_handle]
      exact .after (growing_handle_member kind owner name descriptor isInterface) fun i =>
        leads_add (.methodHandle kind i) trivial
  | dynamic name descriptor bootstrap =>
      exact .after (growing_name_and_type name descriptor) fun i => leads_add (.dynamic bootstrap i) trivial

end PoolBuilder

namespace Assembler

open PoolBuilder (Leads)

theorem leads_operand_index (operand : Operand) :
    Keeps (operandIndex operand) (Leads operand.namesInterface) := by
  cases operand with
  | constant value => exact PoolBuilder.leads_constant value
  | field use => exact PoolBuilder.leads_field_ref _ _ _
  | call call => exact PoolBuilder.leads_method_ref _ _ _ _
  | dynamicCall call => exact PoolBuilder.leads_dynamic_call _ _ _
  | type name => exact PoolBuilder.leads_class_name name
  | multiArray name dimensions => exact PoolBuilder.leads_class_name name
  | _ =>
      refine ⟨.pure 0, fun b b' index _ done b'' _ => ?_⟩
      cases done
      rw [Leads, PoolBuilder.get?_pool]
      rfl

theorem keeps_lines_onto (reversed : List Line) (code : List Instruction) :
    Keeps (linesOnto reversed code) fun pool lines => ∃ more, lines = reversed.reverse ++ more ∧
      List.Forall₂ (fun i (line : Line) => (line.opcode = i.opcode ∧ line.operand = i.operand) ∧
        line.callsInterface pool = i.callsInterface) code more := by
  induction code generalizing reversed with
  | nil =>
      refine (Keeps.pure reversed.reverse).imp ?_
      rintro pool lines rfl
      exact ⟨[], (List.append_nil _).symm, .nil⟩
  | cons i code ih =>
      refine ((leads_operand_index i.operand).bind fun index => ih (⟨i.opcode, i.operand, index⟩ :: reversed)).imp ?_
      rintro pool lines ⟨index, leads, more, rfl, each⟩
      refine ⟨⟨i.opcode, i.operand, index⟩ :: more, ?_, .cons ⟨⟨rfl, rfl⟩, ?_⟩ each⟩
      · rw [List.reverse_cons, List.append_assoc]
        rfl
      · rw [Line.callsInterface, leads]
        rfl

end Assembler

namespace ClassFile

open Assembler (Line)

-- The lines that the code of a method is written from, which stands in the file if there is any.
structure StandsIn [Libraries] (className : String) (m : Method) (file : List UInt8)
    (lines : List Line) : Prop where
  instructions : List.Forall₂ (fun i (line : Line) => line.opcode = i.opcode ∧ line.operand = i.operand)
    m.code.toList lines
  written : m.code.isEmpty = false → ∃ layout code,
    (codeContext m (qualified className m)).layout lines = .ok layout ∧
    (codeContext m (qualified className m)).emit layout lines = .ok code ∧ code <:+: file

theorem StandsIn.within [Libraries] {className : String} {m : Method} {file whole : List UInt8}
    {lines : List Line} (stands : StandsIn className m file lines) (inside : file <:+: whole) :
    StandsIn className m whole lines where
  instructions := stands.instructions
  written := by
    intro filled
    obtain ⟨layout, code, laid, emitted, part⟩ := stands.written filled
    exact ⟨layout, code, laid, emitted, part.trans inside⟩

-- The lines refer to methods of interfaces where the instructions do.
def SameCalls (pool : Pool) (m : Method) (lines : List Line) : Prop :=
  List.Forall₂ (fun i (line : Line) => line.callsInterface pool = i.callsInterface) m.code.toList lines

section Written

theorem standing_code [Libraries] (className : String) (m : Method) :
    Keeps (codeBytes m (qualified className m)) fun pool bytes => ∃ lines,
      StandsIn className m bytes lines ∧ SameCalls pool m lines := by
  let c := codeContext m (qualified className m)
  have rest : ∀ (layout : Assembler.Layout) (code : List UInt8), Keeps (do
      let ranges ← m.tryRanges.mapM (rangeBytes c layout)
      let attrs ← localAttributes c layout m.locals
      pure (Bytes.u16 (maxStack m) ++ Bytes.u16 (maxLocals m) ++ Bytes.count32 code.length ++ code ++
        Bytes.count16 ranges.flatten.length ++ ranges.flatten.flatten ++ attributeBytes attrs))
      fun _ bytes => code <:+: bytes := by
    intro layout code
    refine .after (Growing.map_m _ _ (growing_range_bytes c layout)) fun ranges =>
      .after (growing_local_attributes c layout m.locals) fun attrs => (Keeps.pure _).imp ?_
    rintro pool bytes rfl
    refine ⟨Bytes.u16 (maxStack m) ++ Bytes.u16 (maxLocals m) ++ Bytes.count32 code.length,
      Bytes.count16 ranges.flatten.length ++ ranges.flatten.flatten ++ attributeBytes attrs, ?_⟩
    simp only [List.append_assoc]
  refine ((Assembler.keeps_lines_onto [] m.code.toList).bind fun lines => (Keeps.lift (c.layout lines)).bind
    fun layout => (Keeps.lift (c.emit layout lines)).bind fun code => rest layout code).imp ?_
  rintro pool bytes ⟨lines, ⟨_, rfl, each⟩, layout, laid, code, emitted, inside⟩
  exact ⟨_, ⟨each.imp fun _ _ same => same.1, fun _ => ⟨layout, code, laid, emitted, inside⟩⟩,
    each.imp fun _ _ same => same.2⟩

theorem infix_flat_map {α : Type} (row : α → List UInt8) (items : List α) (item : α) (member : item ∈ items) :
    row item <:+: items.flatMap row := by
  obtain ⟨before, after, rfl⟩ := List.append_of_mem member
  rw [List.flatMap_append, List.flatMap_cons]
  exact ⟨before.flatMap row, after.flatMap row, List.append_assoc ..⟩

theorem infix_attribute_bytes (attr : Attribute) (attrs : List Attribute) (member : attr ∈ attrs) :
    attr.2 <:+: attributeBytes attrs := by
  have row := infix_flat_map (fun attr : Attribute =>
    Bytes.u16 attr.1 ++ Bytes.count32 attr.2.length ++ attr.2) attrs attr member
  exact ((List.suffix_append _ _).isInfix.trans row).trans (List.suffix_append _ _).isInfix

theorem standing_code_attribute [Libraries] (className : String) (m : Method) :
    Keeps (codeAttribute className m) fun pool attrs => ∃ lines, SameCalls pool m lines ∧
      ∀ file, (∀ attr ∈ attrs, attr.2 <:+: file) → StandsIn className m file lines := by
  unfold codeAttribute
  cases empty : m.code.isEmpty with
  | true =>
      have none : m.code.toList = [] := List.isEmpty_iff.mp empty
      refine (Keeps.pure []).imp fun pool attrs _ => ⟨[], ?_, fun file _ => ⟨?_, ?_⟩⟩
      · rw [SameCalls, none]
        exact .nil
      · rw [none]
        exact .nil
      · intro filled
        rw [empty] at filled
        cases filled
  | false =>
      refine (keeps_single "Code" _ _ (standing_code className m)).imp ?_
      rintro pool attrs ⟨index, body, rfl, _, lines, stands, same⟩
      exact ⟨lines, same, fun file inside => stands.within (inside (index, body) (.head _))⟩

theorem standing_method [Libraries] (className : String) (m : Method) :
    Keeps (methodBytes className m) fun pool bytes => ∃ lines,
      StandsIn className m bytes lines ∧ SameCalls pool m lines := by
  have rest : ∀ (name descriptor : List UInt8) (code : List Attribute), Keeps (do
      let exceptions ← exceptionsAttribute m
      let signature ← signatureAttribute m.signature
      let annotations ← annotationAttribute m.annotations
      pure (Bytes.u16 m.access.bits ++ name ++ descriptor ++
        attributeBytes (code ++ exceptions ++ signature ++ annotations)))
      fun _ bytes => ∀ attr ∈ code, attr.2 <:+: bytes := by
    intro name descriptor code
    refine .after (needs_exceptions m).growing fun exceptions => .after (needs_signature _).growing
      fun signature => .after (needs_annotations _).growing fun annotations => (Keeps.pure _).imp ?_
    rintro pool bytes rfl attr member
    refine (infix_attribute_bytes attr _ ?_).trans (List.suffix_append _ _).isInfix
    exact List.mem_append_left _ (List.mem_append_left _ (List.mem_append_left _ member))
  rw [method_bytes_eq]
  refine .after (needs_text _).growing fun name => .after (needs_text _).growing fun descriptor => ?_
  refine ((standing_code_attribute className m).bind (rest name descriptor)).imp ?_
  rintro pool bytes ⟨code, ⟨lines, same, stands⟩, inside⟩
  exact ⟨lines, stands bytes inside, same⟩

theorem standing_methods [Libraries] (className : String) (methods : List Method) :
    Keeps (listBytes methods (methodBytes className)) fun pool bytes => ∃ bodies,
      List.Forall₂ (fun m lines => StandsIn className m bytes lines ∧ SameCalls pool m lines)
        methods bodies := by
  refine ((Keeps.map_m methods fun m _ => standing_method className m).last _).imp ?_
  rintro pool bytes ⟨rows, each, rfl⟩
  suffices ∃ bodies, List.Forall₂ (fun m lines => StandsIn className m rows.flatten lines ∧
      SameCalls pool m lines) methods bodies by
    obtain ⟨bodies, stand⟩ := this
    refine ⟨bodies, stand.imp fun m lines both => ⟨both.1.within ?_, both.2⟩⟩
    exact (List.suffix_append _ _).isInfix
  induction each with
  | nil => exact ⟨[], .nil⟩
  | cons first _ ih =>
      obtain ⟨lines, stands, same⟩ := first
      obtain ⟨bodies, later⟩ := ih
      refine ⟨lines :: bodies, .cons ⟨stands.within ?_, same⟩ (later.imp fun m lines both =>
        ⟨both.1.within ?_, both.2⟩)⟩
      · exact (List.prefix_append _ _).isInfix
      · exact (List.suffix_append _ _).isInfix

theorem standing_body [Libraries] (c : Class) (fields : List Field) (methods : List Method) :
    Keeps (bodyBytes c fields methods) fun pool bytes => ∃ bodies,
      List.Forall₂ (fun m lines => StandsIn c.name m bytes lines ∧ SameCalls pool m lines)
        methods bodies := by
  have rest : ∀ before methods : List UInt8, Keeps (do
      let signature ← signatureAttribute c.signature
      let annotations ← annotationAttribute c.annotations
      let bootstrap ← bootstrapAttribute c.bootstrapMethods
      pure (before ++ methods ++ attributeBytes (signature ++ annotations ++ bootstrap)))
      fun _ bytes => methods <:+: bytes := by
    intro before methods
    refine .after (needs_signature _).growing fun signature => .after (needs_annotations _).growing
      fun annotations => .after (needs_bootstraps _).growing fun bootstrap => (Keeps.pure _).imp ?_
    rintro pool bytes rfl
    exact ⟨_, _, rfl⟩
  rw [body_bytes_eq]
  refine .after (needs_name _).growing fun name => .after (needs_index (needs_catch_index _)).growing
    fun superName => .after (needs_plain_list _ needs_name).growing fun interfaces =>
      .after (needs_list fields needs_field).growing fun fields => ?_
  refine ((standing_methods c.name methods).bind fun rows => rest _ rows).imp ?_
  rintro pool bytes ⟨rows, ⟨bodies, stand⟩, inside⟩
  exact ⟨bodies, stand.imp fun m lines both => ⟨both.1.within inside, both.2⟩⟩

end Written

section Versions

-- The version is high enough for the pool and for the lines of a file.
structure Covers (version : UInt16) (pool : Pool) (lines : List Line) : Prop where
  entries : ∀ entry ∈ pool.entries, entry.since ≤ version
  calls : ∀ line ∈ lines, line.callsInterface pool = true → 52 ≤ version

-- The version is high enough for everything in a class.
structure Suffices (version : UInt16) (c : Class) (fields : List Field) (methods : List Method) : Prop where
  values : ∀ f ∈ fields, ∀ value ∈ f.value, value.since ≤ version
  operands : ∀ m ∈ methods, ∀ i ∈ m.code.toList, i.operand.since ≤ version
  bootstrap : ∀ b ∈ c.bootstrapMethods, ∀ value ∈ b.handle :: b.arguments, value.since ≤ version
  calls : ∀ m ∈ methods, ∀ i ∈ m.code.toList, i.callsInterface = true → 52 ≤ version

-- A file of that version with that pool, in which the methods stand as these lines.
def FileOf [Libraries] (version : UInt16) (className : String) (methods : List Method)
    (bytes : List UInt8) (pool : Pool) (bodies : List (List Line)) : Prop :=
  ∃ entries body, bytes = Bytes.u32 magic ++ Bytes.u16 0 ++ Bytes.u16 version ++ entries ++ body ∧
    Reader.Reads Pool.read entries pool ∧
    List.Forall₂ (fun m lines => StandsIn className m body lines) methods bodies

theorem entries_iff [Libraries] (c : Class) (fields : List Field) (methods : List Method)
    (b : PoolBuilder)
    (body : List UInt8) (ran : bodyBytes c fields methods {} = .ok (body, b)) (version : UInt16)
    (old : 45 ≤ version) : (∀ entry ∈ b.pool.entries, entry.since ≤ version) ↔
      (∀ f ∈ fields, ∀ value ∈ f.value, value.since ≤ version) ∧
      (∀ m ∈ methods, ∀ i ∈ m.code.toList, i.operand.since ≤ version) ∧
      ∀ b ∈ c.bootstrapMethods, ∀ value ∈ b.handle :: b.arguments, value.since ≤ version := by
  have none : PoolBuilder.Within {} version := List.forall_mem_singleton.mpr old
  have within := (needs_body c fields methods).within {} b body version PoolBuilder.valid_empty ran old
  rw [and_iff_right none, List.forall_mem_append, List.forall_mem_append] at within
  simp only [List.forall_mem_flatMap, valueVersions, codeVersions, bootstrapVersions,
    List.forall_mem_map, Option.mem_toList] at within
  exact (forall_congr' fun entry => imp_congr_left List.mem_toArray).trans within

theorem calls_iff (pool : Pool) (methods : List Method) (bodies : List (List Line)) (claim : Prop)
    (same : List.Forall₂ (SameCalls pool) methods bodies) :
    (∀ line ∈ bodies.flatten, line.callsInterface pool = true → claim) ↔
      ∀ m ∈ methods, ∀ i ∈ m.code.toList, i.callsInterface = true → claim := by
  have one : ∀ code lines, List.Forall₂ (fun (i : Instruction) (line : Line) =>
      line.callsInterface pool = i.callsInterface) code lines →
      ((∀ line ∈ lines, line.callsInterface pool = true → claim) ↔
        ∀ i ∈ code, i.callsInterface = true → claim) := by
    intro code lines each
    induction each with
    | nil => exact iff_of_true (List.forall_mem_nil _) (List.forall_mem_nil _)
    | cons first _ ih => rw [List.forall_mem_cons, List.forall_mem_cons, first, ih]
  induction same with
  | nil => exact iff_of_true (List.forall_mem_nil _) (List.forall_mem_nil _)
  | cons first _ ih =>
      rw [List.flatten_cons, List.forall_mem_append, List.forall_mem_cons]
      exact and_congr (one _ _ first) ih

theorem encode_requires [Libraries] (p : Program) (id : ClassId) (c : Class) (bytes : List UInt8)
    (found : p.class? id = some c) (written : encode p id = .ok bytes) : ∃ pool bodies,
      FileOf (versionOf p c) c.name (liveMethods p c) bytes pool bodies ∧
      ∀ version, 45 ≤ version → (Covers version pool bodies.flatten ↔
        Suffices version c (liveFields p c) (liveMethods p c)) := by
  obtain ⟨body, b, ran, isBytes⟩ := encode_parts p id c bytes found written
  have keeps := standing_body c (liveFields p c) (liveMethods p c)
  have valid := (keeps.growing {} b body ran).valid PoolBuilder.valid_empty
  obtain ⟨bodies, stand⟩ := keeps.promises {} b body PoolBuilder.valid_empty ran b (.refl b)
  refine ⟨b.pool, bodies, ⟨b.write, body, isBytes, PoolBuilder.reads_pool b valid,
    stand.imp fun _ _ both => both.1⟩, fun version old => ?_⟩
  have entries := entries_iff c _ _ b body ran version old
  have calls := calls_iff b.pool _ bodies (52 ≤ version) (stand.imp fun _ _ both => both.2)
  constructor
  · intro covers
    obtain ⟨values, operands, bootstrap⟩ := entries.mp covers.entries
    exact ⟨values, operands, bootstrap, calls.mp covers.calls⟩
  · intro enough
    exact ⟨entries.mpr ⟨enough.values, enough.operands, enough.bootstrap⟩,
      calls.mpr enough.calls⟩

theorem Suffices.mono {low high : UInt16} {c : Class} {fields : List Field} {methods : List Method}
    (enough : Suffices low c fields methods) (le : low ≤ high) : Suffices high c fields methods where
  values f member value held := UInt16.le_trans (enough.values f member value held) le
  operands m member i inside := UInt16.le_trans (enough.operands m member i inside) le
  bootstrap b member value held := UInt16.le_trans (enough.bootstrap b member value held) le
  calls m member i inside calls := UInt16.le_trans (enough.calls m member i inside calls) le

-- Where the scan does not look, there is nothing that is newer than what is verified without frames.
structure OldElsewhere (c : Class) (fields : List Field) (methods : List Method) : Prop where
  values : ∀ f ∈ fields, ∀ value ∈ f.value, value.since ≤ inferenceVersion
  bootstrap : ∀ b ∈ c.bootstrapMethods, ∀ value ∈ b.handle :: b.arguments, value.since ≤ inferenceVersion
  calls : ∀ m ∈ methods, ∀ i ∈ m.code.toList, i.callsInterface = false

theorem since_old (value : Constant) (old : value.since ≤ inferenceVersion) : value.since = 45 := by
  cases value with
  | methodType _ => exact absurd old (by decide : ¬(51 : UInt16) ≤ 50)
  | methodHandle _ _ _ _ _ => exact absurd old (by decide : ¬(51 : UInt16) ≤ 50)
  | dynamic _ _ _ => exact absurd old (by decide : ¬(55 : UInt16) ≤ 50)
  | _ => rfl

theorem since_unscanned (operand : Operand) (plain : needsModernVersion operand = false) :
    operand.since = 45 := by
  cases operand with
  | dynamicCall _ => cases plain
  | constant value =>
      cases value with
      | methodType _ => cases plain
      | methodHandle _ _ _ _ _ => cases plain
      | dynamic _ _ _ => cases plain
      | _ => rfl
  | _ => rfl

theorem written_version_modern (c : Class) :
    c.version ≤ writtenVersion c true ∧ 45 ≤ writtenVersion c true := by
  simp only [writtenVersion, max, inferenceVersion]
  grind

theorem written_version_old (c : Class) :
    45 ≤ writtenVersion c false ∧ writtenVersion c false ≤ inferenceVersion := by
  simp only [writtenVersion, max, min, oldestVersion, inferenceVersion]
  grind

theorem suffices_old (c : Class) (fields : List Field) (methods : List Method) (version : UInt16)
    (least : 45 ≤ version) (most : version ≤ inferenceVersion)
    (plain : ∀ m ∈ methods, isModern c m = false) :
    Suffices version c fields methods ↔ OldElsewhere c fields methods := by
  constructor
  · intro enough
    refine ⟨fun f member value held => UInt16.le_trans (enough.values f member value held) most,
      fun b member value held => UInt16.le_trans (enough.bootstrap b member value held) most,
      fun m member i inside => ?_⟩
    cases calls : i.callsInterface with
    | false => rfl
    | true =>
        have high := UInt16.le_trans (enough.calls m member i inside calls) most
        exact absurd high (by decide)
  · intro old
    refine ⟨fun f member value held => ?_, fun m member i inside => ?_, fun b member value held => ?_,
      fun m member i inside calls => ?_⟩
    · rw [since_old value (old.values f member value held)]
      exact least
    · have unscanned := (Bool.or_eq_false_iff.mp (plain m member)).1
      rw [since_unscanned i.operand (Bool.eq_false_iff.mpr (List.any_eq_false.mp unscanned i inside))]
      exact least
    · rw [since_old value (old.bootstrap b member value held)]
      exact least
    · rw [old.calls m member i inside] at calls
      cases calls

-- The version of a written class covers its file exactly if the scan of its bodies has found that it is
-- modern, or there is nothing new where the scan does not look.
theorem encode_covers [Libraries] (p : Program) (id : ClassId) (c : Class) (bytes : List UInt8)
    (found : p.class? id = some c) (written : encode p id = .ok bytes)
    (recorded : Suffices c.version c (liveFields p c) (liveMethods p c)) : ∃ pool bodies,
      FileOf (versionOf p c) c.name (liveMethods p c) bytes pool bodies ∧
      (Covers (versionOf p c) pool bodies.flatten ↔
        (liveMethods p c).any (isModern c) = true ∨ OldElsewhere c (liveFields p c) (liveMethods p c)) := by
  obtain ⟨pool, bodies, file, covers⟩ := encode_requires p id c bytes found written
  refine ⟨pool, bodies, file, ?_⟩
  unfold versionOf
  cases modern : (liveMethods p c).any (isModern c) with
  | true =>
      obtain ⟨above, least⟩ := written_version_modern c
      exact iff_of_true ((covers _ least).mpr (recorded.mono above)) (.inl rfl)
  | false =>
      obtain ⟨least, most⟩ := written_version_old c
      have plain : ∀ m ∈ liveMethods p c, isModern c m = false := fun m member =>
        Bool.eq_false_iff.mpr (List.any_eq_false.mp modern m member)
      rw [covers _ least, suffices_old c _ _ _ least most plain]
      exact (or_iff_right Bool.false_ne_true).symm

-- A class of version 52 with a method of one instruction, whose result it returns.
def maker (op : Opcode) (operand : Operand) : Method where
  owner := ⟨1⟩
  name := "make"
  descriptor := "()Ljava/lang/Object;"
  signature := none
  access := ⟨9⟩
  kind := .method
  exceptions := []
  annotations := []
  code := ⟨[⟨⟨0⟩, op, operand⟩, ⟨⟨1⟩, 0xb0, .simple⟩]⟩

def shop (bootstrapMethods : List BootstrapMethod) : Class where
  name := "Shop"
  superName := some "java/lang/Object"
  interfaces := []
  signature := none
  access := ⟨0x0021⟩
  version := 52
  bootstrapMethods := bootstrapMethods
  annotations := []
  fields := []
  methods := [⟨2⟩]

def shopping (bootstrapMethods : List BootstrapMethod) (op : Opcode) (operand : Operand) : Program where
  classes := ⟨[(⟨1⟩, shop bootstrapMethods)]⟩
  methods := ⟨[(⟨2⟩, maker op operand)]⟩

-- Handles of a method of a class, and a method of an interface that is called without an object.
def valueOf : Constant := .methodHandle 6 "java/lang/Integer" "valueOf" "(I)Ljava/lang/Integer;" false

def listOf : Call := ⟨"java/util/List", "of", "()Ljava/util/List;", true, .static⟩

theorem encode_covers_handle : (shopping [] Opcode.ldc (.constant valueOf)).class? ⟨1⟩ = some (shop []) ∧
    Suffices 52 (shop []) [] [maker Opcode.ldc (.constant valueOf)] ∧
    ∃ bytes pool bodies, encode (shopping [] Opcode.ldc (.constant valueOf)) ⟨1⟩ = .ok bytes ∧
      FileOf 52 "Shop" [maker Opcode.ldc (.constant valueOf)] bytes pool bodies ∧
      Covers 52 pool bodies.flatten := by
  have recorded : Suffices 52 (shop []) [] [maker Opcode.ldc (.constant valueOf)] :=
    ⟨by decide, by decide, by decide, by decide⟩
  obtain ⟨bytes, written⟩ :=
    except_ok (encode (shopping [] Opcode.ldc (.constant valueOf)) ⟨1⟩) (by decide +kernel)
  obtain ⟨pool, bodies, file, covers⟩ :=
    encode_covers (shopping [] Opcode.ldc (.constant valueOf)) ⟨1⟩ (shop []) bytes rfl written recorded
  exact ⟨rfl, recorded, bytes, pool, bodies, written, file, covers.mpr (.inl (by decide))⟩

theorem uncovered_of_new [Libraries] (bootstrapMethods : List BootstrapMethod) (op : Opcode)
    (operand : Operand)
    (succeeds : (encode (shopping bootstrapMethods op operand) ⟨1⟩).toOption.isSome = true)
    (scanned : versionOf (shopping bootstrapMethods op operand) (shop bootstrapMethods) = 50)
    (new : ¬Suffices 50 (shop bootstrapMethods) [] [maker op operand]) : ∃ bytes pool bodies,
      encode (shopping bootstrapMethods op operand) ⟨1⟩ = .ok bytes ∧
      FileOf 50 "Shop" [maker op operand] bytes pool bodies ∧ ¬Covers 50 pool bodies.flatten := by
  obtain ⟨bytes, written⟩ := except_ok (encode (shopping bootstrapMethods op operand) ⟨1⟩) succeeds
  obtain ⟨pool, bodies, file, covers⟩ := encode_requires _ ⟨1⟩ (shop bootstrapMethods) bytes rfl written
  rw [scanned] at file
  exact ⟨bytes, pool, bodies, written, file, new ∘ (covers 50 (by decide)).mp⟩

-- A call of a static method of an interface, and a handle that only a bootstrap method mentions.
theorem shopping_uncovered :
    (Suffices 52 (shop []) [] [maker Opcode.invokeStatic (.call listOf)] ∧ ∃ bytes pool bodies,
      encode (shopping [] Opcode.invokeStatic (.call listOf)) ⟨1⟩ = .ok bytes ∧
      FileOf 50 "Shop" [maker Opcode.invokeStatic (.call listOf)] bytes pool bodies ∧
      ¬Covers 50 pool bodies.flatten) ∧
    (Suffices 52 (shop [⟨valueOf, []⟩]) [] [maker 0x01 .simple] ∧ ∃ bytes pool bodies,
      encode (shopping [⟨valueOf, []⟩] 0x01 .simple) ⟨1⟩ = .ok bytes ∧
      FileOf 50 "Shop" [maker 0x01 .simple] bytes pool bodies ∧ ¬Covers 50 pool bodies.flatten) := by
  refine ⟨⟨⟨by decide, by decide, by decide, by decide⟩, ?_⟩,
    ⟨⟨by decide, by decide, by decide, by decide⟩, ?_⟩⟩
  · refine uncovered_of_new _ _ _ (by decide +kernel) rfl fun enough => ?_
    exact absurd enough.calls (by decide)
  · refine uncovered_of_new _ _ _ (by decide +kernel) rfl fun enough => ?_
    exact absurd enough.bootstrap (by decide)

end Versions

end ClassFile

end JvmEdit
