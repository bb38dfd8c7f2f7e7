import JvmEdit.Proofs.ClassFile.Tables
set_option autoImplicit false

namespace JvmEdit

theorem encoder_lift {α : Type} (result : Except EncodeError α) (b b' : PoolBuilder) (value : α)
    (done : (liftM result : Encoder α) b = .ok (value, b')) : result = .ok value ∧ b' = b := by
  cases result with
  | error e => cases done
  | ok a =>
      cases done
      exact ⟨rfl, rfl⟩

namespace ClassFile

open Assembler (Context)

section Attributes

def Holds (pool : Pool) (table : String × List UInt8) (attr : Attribute) : Prop :=
  pool.utf8 attr.1 = .ok table.1 ∧ attr.2 = table.2

theorem growing_named (name : String) (body : List UInt8) : Growing (named name body) :=
  (PoolBuilder.growing_utf8 name).bind fun _ => .pure _

theorem promises_named (name : String) (body : List UInt8) :
    Promises (named name body) fun pool attr => Holds pool (name, body) attr := by
  intro b b' attr valid done b'' grown
  obtain ⟨index, mid, ran, done⟩ := state_t_bind _ _ b b' attr done
  cases done
  exact ⟨PoolBuilder.answers_utf8 name b b' index valid ran b'' grown, rfl⟩

theorem reads_attribute (pool : Pool) (table : String × List UInt8) (attr : Attribute)
    (holds : Holds pool table attr) (small : table.2.length < 2 ^ 32) :
    Reader.Reads (readAttribute pool) (Bytes.u16 attr.1 ++ Bytes.count32 attr.2.length ++ attr.2)
      table := by
  obtain ⟨name, body⟩ := attr
  obtain ⟨named, isBody⟩ := holds
  dsimp only at named isBody
  subst isBody
  have length : (UInt32.ofNat table.2.length).toNat = table.2.length := by
    rw [UInt32.toNat_ofNat']
    exact Nat.mod_eq_of_lt small
  rw [List.append_assoc]
  refine (Reader.reads_u16 name).bind ?_
  refine (Reader.reads_lift _ _ named).bind ((Reader.reads_u32 _).bind ?_)
  rw [length]
  exact (Reader.reads_bytes table.2).last (Reader.reads_pure _)

theorem reads_attributes {σ : Type} (pool : Pool) (use : σ → String → List UInt8 → Except DecodeError σ)
    (tables : List (String × List UInt8)) (attributes : List Attribute)
    (holds : List.Forall₂ (Holds pool) tables attributes)
    (small : ∀ table ∈ tables, table.2.length < 2 ^ 32) (few : attributes.length ≤ 65535)
    (state final : σ)
    (folded : tables.foldlM (fun state table => use state table.1 table.2) state = .ok final) :
    Reader.Reads (readAttributes pool state use) (attributeBytes attributes) final := by
  have count : (UInt16.ofNat attributes.length).toNat = attributes.length := to_nat_offset _ few
  have loop : ∀ state, tables.foldlM (fun state table => use state table.1 table.2) state = .ok final →
      Reader.Reads (readAttributes.loop pool use attributes.length state)
        (attributes.flatMap fun attr =>
          Bytes.u16 attr.1 ++ Bytes.count32 attr.2.length ++ attr.2) final := by
    clear few count folded
    induction holds with
    | nil =>
        intro state folded
        cases folded
        exact Reader.reads_pure _
    | @cons table attr tables attributes first _ ih =>
        intro state folded
        rw [List.foldlM_cons] at folded
        obtain ⟨next, used, folded⟩ := except_bind _ _ _ folded
        have one := reads_attribute pool table attr first (small table (List.mem_cons_self ..))
        have later := ih (fun table member => small table (List.mem_cons_of_mem _ member)) next folded
        rw [List.flatMap_cons]
        exact one.bind ((Reader.reads_lift _ _ used).bind later)
  refine (Reader.reads_u16 _).bind ?_
  rw [count]
  exact loop state folded

theorem parse_of_reads {α : Type} (reader : Reader α) (bytes : List UInt8) (value : α)
    (read : Reader.Reads reader bytes value) : parse reader bytes = .ok value := by
  have whole := read [] 0
  rw [List.append_nil] at whole
  simp only [parse, Reader.runOn]
  rw [whole]
  rfl

theorem reads_rows {α : Type} (reader : Reader α) (values : List α) (rows : List (List UInt8))
    (read : List.Forall₂ (fun value row => Reader.Reads reader row value) values rows)
    (few : rows.length ≤ 65535) :
    Reader.Reads (Reader.listOf reader) (Bytes.count16 rows.length ++ rows.flatten) values := by
  have same := read.length_eq
  have first : (values.zip rows).map Prod.fst = values := List.map_fst_zip (by omega)
  have second : (values.zip rows).flatMap Prod.snd = rows.flatten := by
    rw [List.flatMap_def, List.map_snd_zip (by omega)]
  have length : (values.zip rows).length = rows.length := by
    rw [List.length_zip]
    omega
  have all := Reader.reads_list_of reader (values.zip rows) Prod.snd Prod.fst
    (fun pair member => List.forall₂_zip read member) (by omega)
  rwa [first, second, length] at all

end Attributes

def codeContext (m : Method) (qualified : String) : Context :=
  ⟨qualified, Flow.labelTable m.code.toList⟩

-- A written body in its parts: the lines and their layout, the code, and the rows of its tables.
structure CodeParts where
  lines : List Assembler.Line
  layout : Assembler.Layout
  code : List UInt8
  ranges : List (List UInt8)
  locals : List (List UInt8 × Option (List UInt8))

def CodeParts.tables (parts : CodeParts) : List (String × List UInt8) :=
  if parts.locals.isEmpty then []
  else
    let typed := parts.locals.filterMap Prod.snd
    ("LocalVariableTable", Bytes.count16 parts.locals.length ++ parts.locals.flatMap Prod.fst) ::
      if typed.isEmpty then []
      else [("LocalVariableTypeTable", Bytes.count16 typed.length ++ typed.flatten)]

theorem local_attributes_eq (c : Context) (layout : Assembler.Layout) (locals : List LocalVariable)
    (some : locals.isEmpty = false) (counted : uncountable locals = none) :
    localAttributes c layout locals = (do
      let rows ← locals.mapM (localBytes c layout)
      let table ← named "LocalVariableTable" (Bytes.count16 rows.length ++ rows.flatMap Prod.fst)
      if (rows.filterMap Prod.snd).isEmpty then pure [table] else do
        let types ← named "LocalVariableTypeTable"
          (Bytes.count16 (rows.filterMap Prod.snd).length ++ (rows.filterMap Prod.snd).flatten)
        pure [table, types]) := by
  simp only [localAttributes]
  rw [some, counted]
  rfl

theorem local_attributes_uncountable (c : Context) (layout : Assembler.Layout)
    (locals : List LocalVariable) (v : LocalVariable) (position : Nat)
    (excess : uncountable locals = some (v, position)) : localAttributes c layout locals = (do
      let _ ← (locals.take position).mapM (localBytes c layout)
      let _ ← localBytes c layout { v with signature := none }
      throw .arithmetic) := by
  have some : locals.isEmpty = false := by
    cases locals with
    | nil => cases excess
    | cons => rfl
  simp only [localAttributes]
  rw [some, excess]
  rfl

theorem uncountable_of_done (c : Context) (layout : Assembler.Layout) (locals : List LocalVariable)
    (b b' : PoolBuilder) (attributes : List Attribute)
    (done : localAttributes c layout locals b = .ok (attributes, b')) : uncountable locals = none := by
  cases excess : uncountable locals with
  | none => rfl
  | some found =>
      rw [local_attributes_uncountable c layout locals found.1 found.2 excess] at done
      obtain ⟨_, b₁, _, done⟩ := state_t_bind _ _ b b' attributes done
      obtain ⟨_, b₂, _, done⟩ := state_t_bind _ _ b₁ b' attributes done
      cases done

theorem local_attributes_parts (c : Context) (layout : Assembler.Layout) (locals : List LocalVariable)
    (b b' : PoolBuilder) (attributes : List Attribute) (valid : b.Valid)
    (done : localAttributes c layout locals b = .ok (attributes, b')) :
    PoolBuilder.Grows b b' ∧ ∃ rows mid, locals.mapM (localBytes c layout) b = .ok (rows, mid) ∧
      PoolBuilder.Grows mid b' ∧ ∀ b'', PoolBuilder.Grows b' b'' → ∀ (parts : CodeParts),
        parts.locals = rows → List.Forall₂ (Holds b''.pool) parts.tables attributes := by
  cases none : locals.isEmpty with
  | true =>
      rw [List.isEmpty_iff] at none
      subst none
      cases done
      refine ⟨.refl b, [], b, rfl, .refl b, fun b'' _ parts isRows => ?_⟩
      rw [CodeParts.tables, isRows]
      exact .nil
  | false =>
      rw [local_attributes_eq c layout locals none
        (uncountable_of_done c layout locals b b' attributes done)] at done
      obtain ⟨rows, mid, ran, done⟩ := state_t_bind _ _ b b' attributes done
      obtain ⟨table, late, isTable, done⟩ := state_t_bind _ _ mid b' attributes done
      have grownRows := Growing.map_m _ locals (growing_local_bytes c layout) b mid rows ran
      have grownTable := growing_named _ _ mid late table isTable
      have holds := promises_named _ _ mid late table (grownRows.valid valid) isTable
      have notEmpty : rows.isEmpty = false := by
        cases locals with
        | nil => cases none
        | cons v locals =>
            rw [List.mapM_cons] at ran
            obtain ⟨row, b₁, _, ran⟩ := state_t_bind _ _ b mid rows ran
            obtain ⟨others, b₂, _, ran⟩ := state_t_bind _ _ b₁ mid rows ran
            cases ran
            rfl
      by_cases untyped : (rows.filterMap Prod.snd).isEmpty = true
      · rw [if_pos untyped] at done
        cases done
        refine ⟨grownRows.trans grownTable, rows, mid, ran, grownTable, fun b'' grown parts isRows => ?_⟩
        rw [CodeParts.tables, isRows, notEmpty]
        dsimp only
        rw [if_neg Bool.false_ne_true, if_pos untyped]
        exact .cons (holds b'' grown) .nil
      · rw [if_neg untyped] at done
        obtain ⟨types, last, isTypes, done⟩ := state_t_bind _ _ late b' attributes done
        cases done
        have grownTypes := growing_named _ _ late b' types isTypes
        have grownBoth := grownTable.trans grownTypes
        refine ⟨grownRows.trans grownBoth, rows, mid, ran, grownBoth, fun b'' grown parts isRows => ?_⟩
        have holdsTypes := promises_named _ _ late b' types (grownTable.valid (grownRows.valid valid))
          isTypes b'' grown
        rw [CodeParts.tables, isRows, notEmpty]
        dsimp only
        rw [if_neg Bool.false_ne_true, if_neg untyped]
        exact .cons (holds b'' (grownTypes.trans grown)) (.cons holdsTypes .nil)

theorem code_bytes_eq [Libraries] (m : Method) (qualified : String) : codeBytes m qualified = (do
    let lines ← Assembler.lines m.code.toList
    let layout ← liftM ((codeContext m qualified).layout lines)
    let code ← liftM ((codeContext m qualified).emit layout lines)
    let rows ← m.tryRanges.mapM (rangeBytes (codeContext m qualified) layout)
    let attributes ← localAttributes (codeContext m qualified) layout m.locals
    pure (Bytes.u16 (maxStack m) ++ Bytes.u16 (maxLocals m) ++ Bytes.count32 code.length ++ code ++
      Bytes.count16 rows.flatten.length ++ rows.flatten.flatten ++ attributeBytes attributes)) := rfl

theorem code_bytes_parts [Libraries] (m : Method) (qualified : String) (b b' : PoolBuilder)
    (bytes : List UInt8) (done : codeBytes m qualified b = .ok (bytes, b')) :
    ∃ lines b₁ layout code rows b₂ attributes,
      Assembler.lines m.code.toList b = .ok (lines, b₁) ∧
      (codeContext m qualified).layout lines = .ok layout ∧
      (codeContext m qualified).emit layout lines = .ok code ∧
      m.tryRanges.mapM (rangeBytes (codeContext m qualified) layout) b₁ = .ok (rows, b₂) ∧
      localAttributes (codeContext m qualified) layout m.locals b₂ = .ok (attributes, b') ∧
      bytes = Bytes.u16 (maxStack m) ++ Bytes.u16 (maxLocals m) ++ Bytes.count32 code.length ++ code ++
        Bytes.count16 rows.flatten.length ++ rows.flatten.flatten ++ attributeBytes attributes := by
  rw [code_bytes_eq] at done
  obtain ⟨lines, b₁, isLines, afterLines⟩ := state_t_bind _ _ b b' bytes done
  obtain ⟨layout, b₂, isLayout, afterLayout⟩ := state_t_bind _ _ b₁ b' bytes afterLines
  obtain ⟨laid, same⟩ := encoder_lift _ b₁ b₂ layout isLayout
  obtain ⟨code, b₃, isCode, afterCode⟩ := state_t_bind _ _ b₂ b' bytes afterLayout
  obtain ⟨emitted, same'⟩ := encoder_lift _ b₂ b₃ code isCode
  rw [same', same] at afterCode
  obtain ⟨rows, b₄, isRows, afterRows⟩ := state_t_bind _ _ b₁ b' bytes afterCode
  obtain ⟨attributes, b₅, isAttributes, last⟩ := state_t_bind _ _ b₄ b' bytes afterRows
  cases last
  exact ⟨lines, b₁, layout, code, rows, b₄, attributes, isLines, laid, emitted, isRows, isAttributes, rfl⟩

-- What is written of a body: the parts, and how the bytes are put together from them.
structure Writes [Libraries] (m : Method) (qualified : String) (b : PoolBuilder) (pool : Pool)
    (parts : CodeParts) (bytes : List UInt8) : Prop where
  lines : ∃ mid, Assembler.lines m.code.toList b = .ok (parts.lines, mid)
  layout : (codeContext m qualified).layout parts.lines = .ok parts.layout
  code : (codeContext m qualified).emit parts.layout parts.lines = .ok parts.code
  bytes : ∃ attributes, List.Forall₂ (Holds pool) parts.tables attributes ∧
    bytes = Bytes.u16 (maxStack m) ++ Bytes.u16 (maxLocals m) ++ Bytes.count32 parts.code.length ++
      parts.code ++ Bytes.count16 parts.ranges.length ++ parts.ranges.flatten ++
      attributeBytes attributes

-- The generic types of local variables, as their table lists them.
def rawSignatures (c : Context) (layout : Assembler.Layout) (locals : List LocalVariable) :
    List LocalSignature :=
  locals.filterMap fun v =>
    v.signature.map fun signature => ⟨(rawLocal c layout v).start, v.slot, signature⟩

def rawUntyped (c : Context) (layout : Assembler.Layout) (locals : List LocalVariable) :
    List Code.RawLocal :=
  locals.map fun v => { rawLocal c layout v with signature := none }

theorem reads_untyped (c : Context) (layout : Assembler.Layout) (pool : Pool)
    (locals : List LocalVariable) (rows : List (List UInt8 × Option (List UInt8)))
    (read : List.Forall₂ (fun v rows => LocalRows c layout v pool rows) locals rows) :
    List.Forall₂ (fun raw row => Reader.Reads (readLocal pool) row raw) (rawUntyped c layout locals)
      (rows.map Prod.fst) := by
  induction read with
  | nil => exact .nil
  | cons first _ ih => exact .cons first.row ih

theorem reads_signatures (c : Context) (layout : Assembler.Layout) (pool : Pool)
    (locals : List LocalVariable) (rows : List (List UInt8 × Option (List UInt8)))
    (read : List.Forall₂ (fun v rows => LocalRows c layout v pool rows) locals rows) :
    List.Forall₂ (fun raw row => Reader.Reads (readLocalSignature pool) row raw)
      (rawSignatures c layout locals) (rows.filterMap Prod.snd) := by
  induction read with
  | nil => exact .nil
  | @cons v row locals rows first _ ih =>
      simp only [rawSignatures] at ih ⊢
      cases signed : v.signature with
      | none =>
          rw [List.filterMap_cons_none (by rw [signed]; rfl),
            List.filterMap_cons_none (first.untyped signed)]
          exact ih
      | some signature =>
          obtain ⟨typed, isTyped, reads, _⟩ := first.typed signature signed
          rw [List.filterMap_cons_some (by rw [signed]; rfl), List.filterMap_cons_some isTyped]
          exact .cons reads ih

theorem length_rows (c : Context) (layout : Assembler.Layout) (pool : Pool)
    (locals : List LocalVariable) (rows : List (List UInt8 × Option (List UInt8)))
    (read : List.Forall₂ (fun v rows => LocalRows c layout v pool rows) locals rows) :
    (rows.flatMap Prod.fst).length = 10 * rows.length ∧
      (rows.filterMap Prod.snd).flatten.length ≤ 10 * rows.length := by
  induction read with
  | nil => exact ⟨rfl, Nat.le_refl _⟩
  | @cons v row locals rows first _ ih =>
      obtain ⟨plain, typed⟩ := ih
      have width := first.width
      rw [List.flatMap_cons, List.length_append, List.length_cons]
      refine ⟨by omega, ?_⟩
      cases signed : v.signature with
      | none =>
          rw [List.filterMap_cons_none (first.untyped signed)]
          omega
      | some signature =>
          obtain ⟨bytes, isTyped, _, width'⟩ := first.typed signature signed
          rw [List.filterMap_cons_some isTyped, List.flatten_cons, List.length_append]
          omega

def takeTable (pool : Pool) (state : List Code.RawLocal × List LocalSignature) (name : String)
    (body : List UInt8) : Except DecodeError (List Code.RawLocal × List LocalSignature) :=
  match name with
  | "LocalVariableTable" => do
      let more ← parse (Reader.listOf (readLocal pool)) body
      return (state.1 ++ more, state.2)
  | "LocalVariableTypeTable" => do
      let more ← parse (Reader.listOf (readLocalSignature pool)) body
      return (state.1, state.2 ++ more)
  | _ => return (state.1, state.2)

theorem read_code_eq (pool : Pool) : readCode pool false = (do
    let maxStack ← Reader.u16
    let maxLocals ← Reader.u16
    let length ← Reader.u32
    let bytes ← Reader.bytes length.toNat
    let ranges ← Reader.listOf (readRange pool)
    let tables ← readAttributes pool ([], []) (takeTable pool)
    pure ⟨maxStack, maxLocals, bytes, ranges, tables.2.foldl assignSignature tables.1⟩) := rfl

theorem foldl_m_tables (c : Context) (layout : Assembler.Layout) (pool : Pool)
    (locals : List LocalVariable) (parts : CodeParts)
    (read : List.Forall₂ (fun v rows => LocalRows c layout v pool rows) locals parts.locals)
    (few : parts.locals.length ≤ 65535) :
    parts.tables.foldlM (fun state table => takeTable pool state table.1 table.2) ([], []) =
      .ok (rawUntyped c layout locals, rawSignatures c layout locals) := by
  have untyped := reads_untyped c layout pool locals parts.locals read
  have signatures := reads_signatures c layout pool locals parts.locals read
  have fewTyped : (parts.locals.filterMap Prod.snd).length ≤ 65535 :=
    Nat.le_trans (List.length_filterMap_le ..) few
  have plain := parse_of_reads _ _ _ (reads_rows _ _ _ untyped (by rw [List.length_map]; exact few))
  have typed := parse_of_reads _ _ _ (reads_rows _ _ _ signatures fewTyped)
  rw [List.length_map, ← List.flatMap_def] at plain
  unfold CodeParts.tables
  cases none : parts.locals.isEmpty with
  | true =>
      rw [List.isEmpty_iff] at none
      rw [none] at read
      cases read
      rfl
  | false =>
      dsimp only
      rw [if_neg Bool.false_ne_true, List.foldlM_cons]
      have first : takeTable pool ([], []) "LocalVariableTable"
          (Bytes.count16 parts.locals.length ++ parts.locals.flatMap Prod.fst) =
            .ok (rawUntyped c layout locals, []) := by
        simp only [takeTable, plain]
        rfl
      rw [first]
      by_cases noTypes : (parts.locals.filterMap Prod.snd).isEmpty = true
      · have noSignatures : rawSignatures c layout locals = [] := by
          rw [List.isEmpty_iff] at noTypes
          rw [noTypes] at signatures
          exact List.forall₂_nil_right_iff.mp signatures
        rw [if_pos noTypes, noSignatures]
        rfl
      · have second : takeTable pool (rawUntyped c layout locals, []) "LocalVariableTypeTable"
            (Bytes.count16 (parts.locals.filterMap Prod.snd).length ++
              (parts.locals.filterMap Prod.snd).flatten) =
              .ok (rawUntyped c layout locals, rawSignatures c layout locals) := by
          simp only [takeTable, typed]
          rfl
        rw [if_neg noTypes]
        change (do
          let next ← takeTable pool (rawUntyped c layout locals, []) "LocalVariableTypeTable" _
          List.foldlM _ next []) = _
        rw [second]
        rfl

theorem length_table_small (c : Context) (layout : Assembler.Layout) (pool : Pool)
    (locals : List LocalVariable) (parts : CodeParts)
    (read : List.Forall₂ (fun v rows => LocalRows c layout v pool rows) locals parts.locals)
    (few : parts.locals.length ≤ 65535) :
    parts.tables.length ≤ 2 ∧ ∀ table ∈ parts.tables, table.2.length < 2 ^ 32 := by
  obtain ⟨plain, typed⟩ := length_rows c layout pool locals parts.locals read
  unfold CodeParts.tables
  by_cases none : parts.locals.isEmpty = true
  · rw [if_pos none]
    refine ⟨Nat.zero_le _, fun table member => ?_⟩
    cases member
  · rw [if_neg none]
    dsimp only
    by_cases noTypes : (parts.locals.filterMap Prod.snd).isEmpty = true
    · rw [if_pos noTypes]
      refine ⟨Nat.le_succ _, fun table member => ?_⟩
      cases List.mem_singleton.mp member
      rw [List.length_append, plain, Bytes.length_count16]
      omega
    · rw [if_neg noTypes]
      refine ⟨Nat.le_refl _, fun table member => ?_⟩
      rcases List.mem_cons.mp member with rfl | member
      · rw [List.length_append, plain, Bytes.length_count16]
        omega
      · cases List.mem_singleton.mp member
        rw [List.length_append, Bytes.length_count16]
        omega

theorem reads_code_parts [Libraries] (m : Method) (c : Context) (layout : Assembler.Layout) (pool : Pool)
    (parts : CodeParts) (attributes : List Attribute) (ranges : List Code.RawRange)
    (short : parts.code.length ≤ 65535) (fewRanges : parts.ranges.length ≤ 65535)
    (fewLocals : parts.locals.length ≤ 65535)
    (rangesRead : List.Forall₂ (fun raw row => Reader.Reads (readRange pool) row raw) ranges
      parts.ranges)
    (localsRead : List.Forall₂ (fun v rows => LocalRows c layout v pool rows) m.locals parts.locals)
    (holds : List.Forall₂ (Holds pool) parts.tables attributes) :
    Reader.Reads (readCode pool false) (Bytes.u16 (maxStack m) ++ Bytes.u16 (maxLocals m) ++
        Bytes.count32 parts.code.length ++ parts.code ++ Bytes.count16 parts.ranges.length ++
        parts.ranges.flatten ++ attributeBytes attributes)
      ⟨maxStack m, maxLocals m, parts.code, ranges,
        (rawSignatures c layout m.locals).foldl assignSignature (rawUntyped c layout m.locals)⟩ := by
  obtain ⟨two, small⟩ := length_table_small c layout pool m.locals parts localsRead fewLocals
  have length : (UInt32.ofNat parts.code.length).toNat = parts.code.length := by
    rw [UInt32.toNat_ofNat']
    omega
  have few : attributes.length ≤ 65535 := by
    rw [← holds.length_eq]
    omega
  have tables := reads_attributes pool (takeTable pool) parts.tables attributes holds small few ([], [])
    _ (foldl_m_tables c layout pool m.locals parts localsRead fewLocals)
  have rows := reads_rows (readRange pool) ranges parts.ranges rangesRead fewRanges
  rw [read_code_eq]
  simp only [List.append_assoc]
  refine (Reader.reads_u16 _).bind ((Reader.reads_u16 _).bind ((Reader.reads_u32 _).bind ?_))
  rw [length]
  refine (Reader.reads_bytes parts.code).bind ?_
  rw [← List.append_assoc (Bytes.count16 _)]
  exact rows.bind (tables.last (Reader.reads_pure _))

-- A generic type belongs to the local that starts there in that slot.
def belongs (s : LocalSignature) (v : Code.RawLocal) : Prop := v.start = s.start ∧ v.slot = s.slot

theorem foldl_assign_skip (signatures : List LocalSignature) (v : Code.RawLocal)
    (locals : List Code.RawLocal) (others : ∀ s ∈ signatures, ¬ belongs s v) :
    signatures.foldl assignSignature (v :: locals) =
      v :: signatures.foldl assignSignature locals := by
  induction signatures generalizing locals with
  | nil => rfl
  | cons s signatures ih =>
      have notHere : ¬ (v.start = s.start ∧ v.slot = s.slot) := others s (List.mem_cons_self ..)
      rw [List.foldl_cons, assignSignature, if_neg notHere,
        ih _ fun t member => others t (List.mem_cons_of_mem _ member), List.foldl_cons]

-- No two locals start at one offset in one slot.
def Separate (c : Context) (layout : Assembler.Layout) (locals : List LocalVariable) : Prop :=
  locals.Pairwise fun v w => ¬ ((rawLocal c layout v).start = (rawLocal c layout w).start ∧ v.slot = w.slot)

theorem foldl_assign_signature (c : Context) (layout : Assembler.Layout) (locals : List LocalVariable)
    (separate : Separate c layout locals) :
    (rawSignatures c layout locals).foldl assignSignature (rawUntyped c layout locals) =
      locals.map (rawLocal c layout) := by
  induction locals with
  | nil => rfl
  | cons v locals ih =>
      obtain ⟨apart, separate⟩ := List.pairwise_cons.mp separate
      have later := ih separate
      have others : ∀ (raw : Code.RawLocal), raw.start = (rawLocal c layout v).start →
          raw.slot = v.slot → ∀ s ∈ rawSignatures c layout locals, ¬ belongs s raw := by
        rintro raw start slot s member ⟨sameStart, sameSlot⟩
        obtain ⟨w, inside, isSome⟩ := List.mem_filterMap.mp member
        obtain ⟨signature, _, rfl⟩ := Option.map_eq_some_iff.mp isSome
        exact apart w inside ⟨start.symm.trans sameStart, slot.symm.trans sameSlot⟩
      have rest : rawUntyped c layout (v :: locals) =
          { rawLocal c layout v with signature := none } :: rawUntyped c layout locals := rfl
      rw [rest, List.map_cons, ← later]
      cases signed : v.signature with
      | none =>
          have unsigned : rawSignatures c layout (v :: locals) = rawSignatures c layout locals :=
            List.filterMap_cons_none (by rw [signed]; rfl)
          have same : { rawLocal c layout v with signature := none } = rawLocal c layout v := by
            simp only [rawLocal]
            rw [signed]
          rw [unsigned, same]
          exact foldl_assign_skip _ _ _ (others _ rfl rfl)
      | some signature =>
          have isCons : rawSignatures c layout (v :: locals) =
              ⟨(rawLocal c layout v).start, v.slot, signature⟩ :: rawSignatures c layout locals :=
            List.filterMap_cons_some (by rw [signed]; rfl)
          have assigned : assignSignature
              ({ rawLocal c layout v with signature := none } :: rawUntyped c layout locals)
              ⟨(rawLocal c layout v).start, v.slot, signature⟩ =
                rawLocal c layout v :: rawUntyped c layout locals := by
            rw [assignSignature, if_pos ⟨rfl, rfl⟩]
            simp only [rawLocal]
            rw [signed]
          rw [isCons, List.foldl_cons, assigned]
          exact foldl_assign_skip _ _ _ (others _ rfl rfl)

end ClassFile

end JvmEdit
