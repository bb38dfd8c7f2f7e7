import JvmEdit.Libraries.Standard
import JvmEdit.Proofs.ClassFile.Sizes
import JvmEdit.Proofs.ClassFile.Structure
set_option autoImplicit false

namespace JvmEdit

namespace ClassFile

section Lists

-- A list that is left out of the file when it is empty.
def optionalLists {α : Type} (listing : Listing) (items : List α) (inside : α → List (Listing × Nat)) :
    List (Listing × Nat) :=
  if items.isEmpty then [] else (listing, items.length) :: items.flatMap inside

def noLists {α : Type} (_ : α) : List (Listing × Nat) := []

def annotationLists (annotations : List Annotation) : List (Listing × Nat) :=
  optionalLists .annotations annotations fun a => [(.values, a.values.length)]

def bootstrapLists (methods : List BootstrapMethod) : List (Listing × Nat) :=
  optionalLists .bootstrapMethods methods fun b => [(.arguments, b.arguments.length)]

def fieldLists (f : Field) : List (Listing × Nat) :=
  (.attributes, f.value.isSome.toNat + f.signature.isSome.toNat + (!f.annotations.isEmpty).toNat) ::
    annotationLists f.annotations

-- The range has an instruction in it. A label that is placed twice stands at its last place.
def guards (code : List Instruction) (range : TryRange) : Bool :=
  match (Flow.labelTable code).lookup range.start, (Flow.labelTable code).lookup range.stop with
  | some start, some stop => ((code.take stop).drop start).any fun i => !i.isLabel
  | _, _ => false

def localLists (locals : List LocalVariable) : List (Listing × Nat) :=
  (.attributes, (!locals.isEmpty).toNat + (!(locals.filterMap (·.signature)).isEmpty).toNat) ::
    (optionalLists .locals locals noLists ++
      optionalLists .signatures (locals.filterMap (·.signature)) noLists)

def codeLists (m : Method) : List (Listing × Nat) :=
  if m.code.isEmpty then []
  else (.ranges, (m.tryRanges.filter (guards m.code.toList)).length) :: localLists m.locals

def methodLists (m : Method) : List (Listing × Nat) :=
  (.attributes, (!m.code.isEmpty).toNat + (!m.exceptions.isEmpty).toNat + m.signature.isSome.toNat +
    (!m.annotations.isEmpty).toNat) ::
    (codeLists m ++ optionalLists .exceptions m.exceptions noLists ++ annotationLists m.annotations)

-- The lists of a class, in the order in which they are written.
def classLists (c : Class) (fields : List Field) (methods : List Method) : List (Listing × Nat) :=
  ((.interfaces, c.interfaces.length) :: c.interfaces.flatMap noLists) ++
    ((.fields, fields.length) :: fields.flatMap fieldLists) ++
    ((.methods, methods.length) :: methods.flatMap methodLists) ++
    (.attributes, c.signature.isSome.toNat + (!c.annotations.isEmpty).toNat +
      (!c.bootstrapMethods.isEmpty).toNat) ::
      (annotationLists c.annotations ++ bootstrapLists c.bootstrapMethods)

end Lists

section Attributes

-- The attributes as rows, so many of them, with these lists in them.
def Places (attrs : List Attribute) (n : Nat) (lists : List (Listing × Nat)) : Prop :=
  ∃ rows : List AttributeRow, rows.length = n ∧ attrs = rows.map (fun r => (r.name, r.body.write)) ∧
    rows.flatMap AttributeRow.counts = lists.map Count.of

theorem Places.none : Places [] 0 [] := ⟨[], rfl, rfl, rfl⟩

theorem Places.append {attrs more : List Attribute} {n k : Nat} {lists others : List (Listing × Nat)}
    (first : Places attrs n lists) (second : Places more k others) :
    Places (attrs ++ more) (n + k) (lists ++ others) := by
  obtain ⟨rows, length, rfl, counted⟩ := first
  obtain ⟨rest, lengthRest, rfl, countedRest⟩ := second
  refine ⟨rows ++ rest, by rw [List.length_append, length, lengthRest], List.map_append.symm, ?_⟩
  rw [List.flatMap_append, counted, countedRest, List.map_append]

theorem Places.written {attrs : List Attribute} {n : Nat} {lists : List (Listing × Nat)}
    (places : Places attrs n lists) : ∃ t : Table AttributeRow,
      attributeBytes attrs = t.write AttributeRow.write ∧
      t.counts .attributes AttributeRow.counts = ((.attributes, n) :: lists).map Count.of := by
  obtain ⟨rows, rfl, rfl, counted⟩ := places
  refine ⟨⟨UInt16.ofNat rows.length, rows⟩, ?_, ?_⟩
  · rw [attributeBytes, List.length_map, List.flatMap_map]
    rfl
  · rw [Table.counts, counted]
    rfl

-- The body of an attribute with these lists in it.
def Embodies (lists : List (Listing × Nat)) (bytes : List UInt8) : Prop :=
  ∃ body : AttributeBody, bytes = body.write ∧ body.counts = lists.map Count.of

theorem gives_single (name : String) (body : Encoder (List UInt8)) (lists : List (Listing × Nat))
    (embodies : Gives body (Embodies lists)) :
    Gives (single name body) fun attrs => Places attrs 1 lists := by
  refine embodies.bind fun bytes ⟨body, isBody, counted⟩ => ?_
  intro b b' attrs done
  obtain ⟨written, mid, named, done⟩ := state_t_bind _ _ b b' attrs done
  obtain ⟨index, late, _, isWritten⟩ := state_t_bind _ _ b mid written named
  cases isWritten
  cases done
  refine ⟨[⟨index, body⟩], rfl, by rw [isBody]; rfl, ?_⟩
  rw [List.flatMap_singleton]
  exact counted

theorem gives_optional (absent : Bool) (name : String) (body : Encoder (List UInt8))
    (lists : List (Listing × Nat)) (embodies : Gives body (Embodies lists)) :
    Gives (if absent then pure [] else single name body) fun attrs =>
      Places attrs (!absent).toNat (if absent then [] else lists) := by
  cases absent with
  | true => exact .pure [] .none
  | false => exact gives_single name body lists embodies

theorem gives_index_body (request : Encoder UInt16) : Gives (indexBytes request) (Embodies []) :=
  (gives_index request).imp fun _ ⟨index, isIndex⟩ => ⟨.index index, isIndex, rfl⟩

theorem gives_signature (signature : Option String) :
    Gives (signatureAttribute signature) fun attrs => Places attrs signature.isSome.toNat [] := by
  cases signature with
  | none => exact .pure [] .none
  | some signature => exact gives_single "Signature" _ [] (gives_index_body _)

theorem gives_value (value : Option Constant) :
    Gives (valueAttribute value) fun attrs => Places attrs value.isSome.toNat [] := by
  cases value with
  | none => exact .pure [] .none
  | some value => exact gives_single "ConstantValue" _ [] (gives_index_body _)

end Attributes

section Declarations

theorem gives_indices {α : Type} (listing : Listing) (items : List α) (request : α → Encoder UInt16) :
    Gives (listBytes items fun item => indexBytes (request item)) fun bytes => ∃ t : Table UInt16,
      bytes = t.write Bytes.u16 ∧
      t.counts listing noCounts = ((listing, items.length) :: items.flatMap noLists).map Count.of :=
  gives_list_bytes listing items _ Bytes.u16 noCounts noLists fun item =>
    (gives_index (request item)).imp fun _ ⟨index, isIndex⟩ => ⟨index, isIndex, rfl⟩

theorem flat_map_no_lists {α : Type} (items : List α) : items.flatMap noLists = [] := by
  induction items with
  | nil => rfl
  | cons item items ih => rw [List.flatMap_cons, ih]; rfl

theorem gives_exceptions (m : Method) : Gives (exceptionsAttribute m) fun attrs =>
    Places attrs (!m.exceptions.isEmpty).toNat (optionalLists .exceptions m.exceptions noLists) :=
  gives_optional _ "Exceptions" _ _ <| (gives_indices .exceptions m.exceptions _).imp
    fun _ ⟨t, isTable, counted⟩ => ⟨.exceptions t, isTable, counted⟩

theorem gives_element (value : AnnotationValue) :
    Gives (elementBytes value) fun bytes => ∃ tag index, bytes = tag :: Bytes.u16 index := by
  have tagged : ∀ (c : Char) (request : Encoder UInt16),
      Gives (do let index ← indexBytes request; return tag c :: index)
        fun bytes => ∃ tag index, bytes = tag :: Bytes.u16 index := fun c request =>
    (gives_index request).bind fun _ ⟨index, isIndex⟩ => .pure _ ⟨tag c, index, by rw [isIndex]⟩
  cases value with
  | int value =>
      rw [elementBytes]
      split
      · exact tagged 'I' _
      · exact tagged 'J' _
  | bool value => exact tagged 'Z' _
  | text value => exact tagged 's' _

theorem gives_pair (pair : String × AnnotationValue) :
    Gives (pairBytes pair) fun bytes => ∃ row : ValueRow, bytes = row.write := by
  refine (gives_index _).bind fun name ⟨index, isName⟩ => (gives_element pair.2).bind ?_
  rintro value ⟨tag, place, isValue⟩
  exact .pure _ ⟨⟨index, tag, place⟩, by rw [isName, isValue]; rfl⟩

theorem gives_annotation (a : Annotation) : Gives (annotationBytes a) fun bytes =>
    ∃ row : AnnotationRow, bytes = row.write ∧ row.counts = [(.values, a.values.length)].map Count.of := by
  rw [annotation_bytes_eq]
  refine (gives_index _).bind fun descriptor ⟨index, isDescriptor⟩ => ?_
  refine (gives_list_bytes .values a.values pairBytes ValueRow.write noCounts noLists fun pair =>
    (gives_pair pair).imp fun _ ⟨row, isRow⟩ => ⟨row, isRow, rfl⟩).bind ?_
  rintro values ⟨t, isValues, counted⟩
  refine .pure _ ⟨⟨index, t⟩, by rw [isDescriptor, isValues]; rfl, ?_⟩
  rw [flat_map_no_lists] at counted
  exact counted

theorem gives_annotations (annotations : List Annotation) : Gives (annotationAttribute annotations)
    fun attrs => Places attrs (!annotations.isEmpty).toNat (annotationLists annotations) := by
  rw [annotation_attribute_eq]
  refine gives_optional _ _ _ _ ?_
  refine (gives_list_bytes .annotations annotations annotationBytes AnnotationRow.write
    AnnotationRow.counts _ gives_annotation).imp ?_
  rintro _ ⟨t, isTable, counted⟩
  exact ⟨.annotations t, isTable, counted⟩

theorem gives_bootstrap (b : BootstrapMethod) : Gives (bootstrapBytes b) fun bytes =>
    ∃ row : BootstrapRow, bytes = row.write ∧
      row.counts = [(.arguments, b.arguments.length)].map Count.of := by
  refine (gives_index _).bind fun handle ⟨index, isHandle⟩ => ?_
  refine (gives_indices .arguments b.arguments PoolBuilder.constant).bind ?_
  rintro arguments ⟨t, isArguments, counted⟩
  refine .pure _ ⟨⟨index, t⟩, by rw [isHandle, isArguments]; rfl, ?_⟩
  rw [flat_map_no_lists] at counted
  exact counted

theorem gives_bootstraps (methods : List BootstrapMethod) : Gives (bootstrapAttribute methods)
    fun attrs => Places attrs (!methods.isEmpty).toNat (bootstrapLists methods) := by
  rw [bootstrap_attribute_eq]
  refine gives_optional _ _ _ _ ?_
  refine (gives_list_bytes .bootstrapMethods methods bootstrapBytes BootstrapRow.write
    BootstrapRow.counts _ gives_bootstrap).imp ?_
  rintro _ ⟨t, isTable, counted⟩
  exact ⟨.bootstrapMethods t, isTable, counted⟩

theorem gives_field (f : Field) : Gives (fieldBytes f) fun bytes => ∃ row : MemberRow,
    bytes = row.write ∧ row.counts = (fieldLists f).map Count.of := by
  rw [field_bytes_eq]
  refine (gives_index _).bind fun name ⟨nameIndex, isName⟩ => ?_
  refine (gives_index _).bind fun descriptor ⟨index, isDescriptor⟩ => ?_
  refine (gives_value f.value).bind fun value valued => (gives_signature f.signature).bind
    fun signature signed => (gives_annotations f.annotations).bind fun annotations annotated => ?_
  obtain ⟨t, isTable, counted⟩ := ((valued.append signed).append annotated).written
  exact .pure _ ⟨⟨f.access.bits, nameIndex, index, t⟩, by rw [isName, isDescriptor, isTable]; rfl, counted⟩

end Declarations

section Bodies

open Assembler (Context Layout Line LaidOut)

theorem size_pos (line : Line) (offset : Nat) (isFar : Bool) :
    0 < Assembler.size line offset isFar ↔ line.operand.isLabel = false := by
  obtain ⟨op, operand, index⟩ := line
  cases operand with
  | label l => simp [Assembler.size, Operand.isLabel, Operand.label?]
  | _ =>
    simp only [Assembler.size, Operand.isLabel, Operand.label?]
    grind

theorem offset_lt_iff {c : Context} {all : List Line} {layout : Layout} (laid : LaidOut c all layout)
    (start count : Nat) (inside : start + count ≤ all.length) :
    layout.offset start ≤ layout.offset (start + count) ∧
      (layout.offset start < layout.offset (start + count) ↔
        ((all.take (start + count)).drop start).any (fun line => !line.operand.isLabel) = true) := by
  induction count with
  | zero => simp
  | succ count ih =>
      obtain ⟨before, moved⟩ := ih (by omega)
      have here : all[start + count]? = some all[start + count] := List.getElem?_eq_getElem (by omega)
      obtain ⟨isFar, mark⟩ := laid.mark (start + count) (by omega)
      have step := laid.step (start + count) _ isFar here mark
      have room := size_pos all[start + count] (layout.offset (start + count)) isFar
      have split : (all.take (start + (count + 1))).drop start =
          (all.take (start + count)).drop start ++ [all[start + count]] := by
        rw [← Nat.add_assoc, List.take_succ_eq_append_getElem (by omega),
          List.drop_append_of_le_length (by rw [List.length_take]; omega)]
      rw [← Nat.add_assoc, step, Nat.add_assoc, split, List.any_append, Bool.or_eq_true, ← moved]
      refine ⟨by omega, ?_⟩
      cases label : all[start + count].operand.isLabel with
      | true =>
          have none : Assembler.size all[start + count] (layout.offset (start + count)) isFar = 0 := by
            simpa [label] using room
          simp [label, none]
      | false =>
          have some : 0 < Assembler.size all[start + count] (layout.offset (start + count)) isFar := room.mpr label
          simp [label]
          omega

theorem operands_lines_onto (reversed : List Line) (code : List Instruction) :
    Gives (Assembler.linesOnto reversed code) fun lines =>
      lines.map (·.operand) = reversed.reverse.map (·.operand) ++ code.map (·.operand) := by
  induction code generalizing reversed with
  | nil => exact .pure _ (List.append_nil _).symm
  | cons i code ih =>
      have asked : Gives (Assembler.operandIndex i.operand) fun _ => True := fun _ _ _ _ => trivial
      refine asked.bind fun index _ => ?_
      refine (ih (⟨i.opcode, i.operand, index⟩ :: reversed)).imp fun lines same => ?_
      rw [same]
      simp

-- The layout of a body, and that its lines are those of the instructions.
structure Lays (m : Method) (qualified : String) (lines : List Line) (layout : Layout) : Prop where
  operands : lines.map (·.operand) = m.code.toList.map (·.operand)
  laid : LaidOut (codeContext m qualified) lines layout

theorem Lays.any_labels {m : Method} {qualified : String} {lines : List Line} {layout : Layout}
    (lays : Lays m qualified lines layout) (start stop : Nat) :
    ((lines.take stop).drop start).any (fun line => !line.operand.isLabel) =
      ((m.code.toList.take stop).drop start).any fun i => !i.isLabel := by
  have parts := congrArg (fun operands => ((operands.take stop).drop start).any fun o => !o.isLabel)
    lays.operands
  simp only [← List.map_take, ← List.map_drop, List.any_map] at parts
  exact parts

theorem Lays.label_inside {m : Method} {qualified : String} {lines : List Line} {layout : Layout}
    (lays : Lays m qualified lines layout) (label : LabelId) (position : Nat)
    (found : (Flow.labelTable m.code.toList).lookup label = some position) : position < lines.length := by
  obtain ⟨i, here, _⟩ := Option.bind_eq_some_iff.mp (Flow.marks_of_lookup m.code.toList label position found)
  have length := congrArg List.length lays.operands
  rw [List.length_map, List.length_map] at length
  rw [length]
  exact (List.getElem?_eq_some_iff.mp here).1

theorem place_of_lookup (m : Method) (qualified : String) (layout : Layout) (label : LabelId)
    (position : Nat) (found : (Flow.labelTable m.code.toList).lookup label = some position) :
    (codeContext m qualified).place layout label = layout.offset position := by
  rw [Context.place, codeContext, found]
  rfl

theorem is_kept_eq_guards {m : Method} {qualified : String} {lines : List Line} {layout : Layout}
    (lays : Lays m qualified lines layout) (range : TryRange)
    (knowsStart : (codeContext m qualified).Knows range.start)
    (knowsStop : (codeContext m qualified).Knows range.stop) :
    isKept (codeContext m qualified) layout range = guards m.code.toList range := by
  obtain ⟨start, foundStart⟩ : ∃ start, (Flow.labelTable m.code.toList).lookup range.start = some start :=
    knowsStart
  obtain ⟨stop, foundStop⟩ : ∃ stop, (Flow.labelTable m.code.toList).lookup range.stop = some stop :=
    knowsStop
  have beforeStart := lays.label_inside _ _ foundStart
  have beforeStop := lays.label_inside _ _ foundStop
  simp only [guards]
  rw [isKept, place_of_lookup m _ layout _ _ foundStart, place_of_lookup m _ layout _ _ foundStop,
    foundStart, foundStop]
  dsimp only
  rcases Nat.lt_or_ge stop start with back | forward
  · obtain ⟨gap, isGap⟩ : ∃ gap, start = stop + (gap + 1) := Nat.exists_eq_add_of_lt back
    have order := (offset_lt_iff lays.laid stop (gap + 1) (by omega)).1
    have empty : (m.code.toList.take stop).drop start = [] := by
      rw [List.drop_eq_nil_iff, List.length_take]
      omega
    rw [empty, List.any_nil, decide_eq_false_iff_not, isGap]
    omega
  · obtain ⟨gap, rfl⟩ := Nat.exists_eq_add_of_le forward
    rw [← lays.any_labels, Bool.eq_iff_iff, decide_eq_true_eq]
    exact (offset_lt_iff lays.laid start gap (by omega)).2

theorem gives_range {m : Method} {qualified : String} {lines : List Line} {layout : Layout}
    (lays : Lays m qualified lines layout) (range : TryRange) :
    Gives (rangeBytes (codeContext m qualified) layout range) fun written => ∃ rows : List RangeRow,
      written = rows.map RangeRow.write ∧ rows.length = (guards m.code.toList range).toNat := by
  intro b b' written done
  rw [range_bytes_eq] at done
  obtain ⟨start, b₁, isStart, done⟩ := state_t_bind _ _ b b' written done
  obtain ⟨rfl, knowsStart, rfl⟩ := offset16_ok _ layout _ b b₁ start isStart
  obtain ⟨stop, b₂, isStop, done⟩ := state_t_bind _ _ b₁ b' written done
  obtain ⟨rfl, knowsStop, rfl⟩ := offset16_ok _ layout _ b₁ b₂ stop isStop
  rw [← is_kept_eq_guards lays range knowsStart knowsStop]
  have small := lays.laid.place_small
  have order : (UInt16.ofNat ((codeContext m qualified).place layout range.stop) ≤
      UInt16.ofNat ((codeContext m qualified).place layout range.start)) ↔
      isKept (codeContext m qualified) layout range = false := by
    rw [isKept, decide_eq_false_iff_not, Nat.not_lt, UInt16.le_iff_toNat_le, to_nat_offset _ (small _),
      to_nat_offset _ (small _)]
  cases kept : isKept (codeContext m qualified) layout range with
  | false =>
      rw [if_pos (order.mpr kept)] at done
      cases done
      exact ⟨[], rfl, rfl⟩
  | true =>
      rw [if_neg (fun empty => by rw [order.mp empty] at kept; cases kept)] at done
      obtain ⟨index, b₃, _, done⟩ := state_t_bind _ _ b₂ b' written done
      obtain ⟨handler, b₄, _, done⟩ := state_t_bind _ _ b₃ b' written done
      cases done
      exact ⟨[⟨_, _, handler, index⟩], rfl, rfl⟩

theorem gives_local (c : Context) (layout : Layout) (v : LocalVariable) :
    Gives (localBytes c layout v) fun written => ∃ row : LocalRow, written.1 = row.write ∧
      (v.signature = none ∧ written.2 = none ∨
        ∃ signature, v.signature = some signature ∧ ∃ typed : LocalRow, written.2 = some typed.write) := by
  intro b b' written done
  unfold localBytes at done
  obtain ⟨start, b₁, _, done⟩ := state_t_bind _ _ b b' written done
  obtain ⟨stop, b₂, _, done⟩ := state_t_bind _ _ b₁ b' written done
  obtain ⟨name, b₃, isName, done⟩ := state_t_bind _ _ b₂ b' written done
  obtain ⟨type, b₄, isType, done⟩ := state_t_bind _ _ b₃ b' written done
  obtain ⟨nameIndex, rfl⟩ := gives_index _ _ _ _ isName
  obtain ⟨typeIndex, rfl⟩ := gives_index _ _ _ _ isType
  cases generic : v.signature with
  | none =>
      rw [generic] at done
      cases done
      exact ⟨⟨start, _, nameIndex, typeIndex, v.slot⟩, rfl, .inl ⟨rfl, rfl⟩⟩
  | some signature =>
      rw [generic] at done
      obtain ⟨again, b₅, isAgain, done⟩ := state_t_bind _ _ b₄ b' written done
      obtain ⟨text, b₆, isText, done⟩ := state_t_bind _ _ b₅ b' written done
      obtain ⟨againIndex, rfl⟩ := gives_index _ _ _ _ isAgain
      obtain ⟨textIndex, rfl⟩ := gives_index _ _ _ _ isText
      cases done
      exact ⟨⟨start, _, nameIndex, typeIndex, v.slot⟩, rfl,
        .inr ⟨signature, rfl, ⟨start, _, againIndex, textIndex, v.slot⟩, rfl⟩⟩

theorem gives_locals (c : Context) (layout : Layout) (locals : List LocalVariable) :
    Gives (locals.mapM (localBytes c layout)) fun written => ∃ rows typed : List LocalRow,
      written.map Prod.fst = rows.map LocalRow.write ∧ rows.length = locals.length ∧
      written.filterMap Prod.snd = typed.map LocalRow.write ∧
      typed.length = (locals.filterMap (·.signature)).length := by
  refine (Gives.map_m locals (gives_local c layout)).imp fun written each => ?_
  induction each with
  | nil => exact ⟨[], [], rfl, rfl, rfl, rfl⟩
  | cons first _ ih =>
      obtain ⟨row, isRow, signature⟩ := first
      obtain ⟨rows, typed, areRows, length, areTyped, lengthTyped⟩ := ih
      rcases signature with ⟨plain, none⟩ | ⟨signature, generic, other, isOther⟩
      · refine ⟨row :: rows, typed, ?_, congrArg Nat.succ length, ?_, ?_⟩
        · rw [List.map_cons, isRow, areRows, List.map_cons]
        · rw [List.filterMap_cons_none none, areTyped]
        · rw [List.filterMap_cons_none plain, lengthTyped]
      · refine ⟨row :: rows, other :: typed, ?_, congrArg Nat.succ length, ?_, ?_⟩
        · rw [List.map_cons, isRow, areRows, List.map_cons]
        · rw [List.filterMap_cons_some isOther, areTyped, List.map_cons]
        · rw [List.filterMap_cons_some generic, List.length_cons, lengthTyped, List.length_cons]

theorem gives_local_table (name : String) (listing : Listing) (rows : List LocalRow) :
    Gives (named name (Bytes.count16 rows.length ++ (rows.map LocalRow.write).flatten)) fun attr =>
      ∃ t : LocalTable, attributeRow attr.1 attr.2 = t.write ∧
        t.counts = [Count.of (listing, rows.length)] := by
  intro b b' attr done
  obtain ⟨index, mid, _, done⟩ := state_t_bind _ _ b b' attr done
  cases done
  refine ⟨⟨index, listing, ⟨UInt16.ofNat rows.length, rows⟩⟩, ?_, ?_⟩
  · rw [← List.flatMap_def]
    rfl
  · rw [LocalTable.counts, Table.counts]
    simp [noCounts, Count.of]

theorem exists_local_tables (attrs : List Attribute) (tables : List LocalTable)
    (lists : List (Listing × Nat)) (rows : attrs.map (fun a => attributeRow a.1 a.2) = tables.map LocalTable.write)
    (counted : tables.flatMap LocalTable.counts = lists.map Count.of) : ∃ t : Table LocalTable,
      attributeBytes attrs = t.write LocalTable.write ∧
      t.counts .attributes LocalTable.counts = ((.attributes, attrs.length) :: lists).map Count.of := by
  have length := congrArg List.length rows
  rw [List.length_map, List.length_map] at length
  refine ⟨⟨UInt16.ofNat attrs.length, tables⟩, ?_, ?_⟩
  · rw [Table.write, List.flatMap_def, ← rows, ← List.flatMap_def]
    rfl
  · rw [Table.counts, counted, ← length]
    rfl

theorem local_lists_untyped (locals : List LocalVariable) (some : locals.isEmpty = false)
    (untyped : (locals.filterMap (·.signature)).isEmpty = true) :
    localLists locals = [(.attributes, 1), (.locals, locals.length)] := by
  rw [localLists, optionalLists, optionalLists, some, untyped, flat_map_no_lists]
  rfl

theorem local_lists_typed (locals : List LocalVariable) (some : locals.isEmpty = false)
    (typed : (locals.filterMap (·.signature)).isEmpty = false) :
    localLists locals = [(.attributes, 2), (.locals, locals.length),
      (.signatures, (locals.filterMap (·.signature)).length)] := by
  rw [localLists, optionalLists, optionalLists, some, typed, flat_map_no_lists, flat_map_no_lists]
  rfl

theorem gives_local_attributes (c : Context) (layout : Layout) (locals : List LocalVariable) :
    Gives (localAttributes c layout locals) fun attrs => ∃ t : Table LocalTable,
      attributeBytes attrs = t.write LocalTable.write ∧
      t.counts .attributes LocalTable.counts = (localLists locals).map Count.of := by
  intro b b' attrs done
  cases none : locals.isEmpty with
  | true =>
      rw [List.isEmpty_iff] at none
      subst none
      cases done
      exact exists_local_tables [] [] [] rfl rfl
  | false =>
      rw [local_attributes_eq c layout locals none (uncountable_of_done c layout locals b b' attrs done)] at done
      obtain ⟨written, mid, ran, done⟩ := state_t_bind _ _ b b' attrs done
      obtain ⟨rows, typed, areRows, length, areTyped, lengthTyped⟩ := gives_locals c layout locals b mid written ran
      have sameLength : written.length = rows.length := by
        have lengths := congrArg List.length areRows
        rwa [List.length_map, List.length_map] at lengths
      rw [List.flatMap_def, areRows, sameLength, areTyped, List.length_map] at done
      obtain ⟨table, late, isTable, done⟩ := state_t_bind _ _ mid b' attrs done
      obtain ⟨t, isRow, counted⟩ := gives_local_table _ .locals rows mid late table isTable
      have empty : (typed.map LocalRow.write).isEmpty = (locals.filterMap (·.signature)).isEmpty := by
        rw [Bool.eq_iff_iff, List.isEmpty_iff, List.isEmpty_iff, ← List.length_eq_zero_iff,
          ← List.length_eq_zero_iff, List.length_map, lengthTyped]
      rw [empty] at done
      cases untyped : (locals.filterMap (·.signature)).isEmpty with
      | true =>
          rw [untyped, if_pos rfl] at done
          cases done
          rw [local_lists_untyped locals none untyped]
          refine exists_local_tables [table] [t] [(.locals, locals.length)] ?_ ?_
          · rw [List.map_singleton, isRow, List.map_singleton]
          · rw [List.flatMap_singleton, counted, length, List.map_singleton]
      | false =>
          rw [untyped, if_neg Bool.false_ne_true] at done
          obtain ⟨types, last, isTypes, done⟩ := state_t_bind _ _ late b' attrs done
          obtain ⟨t', isRow', counted'⟩ := gives_local_table _ .signatures typed late last types isTypes
          cases done
          rw [local_lists_typed locals none untyped]
          refine exists_local_tables [table, types] [t, t'] [(.locals, locals.length),
            (.signatures, (locals.filterMap (·.signature)).length)] ?_ ?_
          · rw [List.map_cons, List.map_singleton, isRow, isRow', List.map_cons, List.map_singleton]
          · rw [List.flatMap_cons, List.flatMap_singleton, counted, counted', length, lengthTyped]
            rfl

theorem exists_ranges (code : List Instruction) (ranges : List TryRange) (groups : List (List (List UInt8)))
    (each : List.Forall₂ (fun range group => ∃ rows : List RangeRow, group = rows.map RangeRow.write ∧
      rows.length = (guards code range).toNat) ranges groups) :
    ∃ rows : List RangeRow, groups.flatten = rows.map RangeRow.write ∧
      rows.length = (ranges.filter (guards code)).length := by
  induction each with
  | nil => exact ⟨[], rfl, rfl⟩
  | @cons range group ranges groups first _ ih =>
      obtain ⟨these, rfl, lengthThese⟩ := first
      obtain ⟨rows, areRows, length⟩ := ih
      refine ⟨these ++ rows, ?_, ?_⟩
      · rw [List.flatten_cons, areRows, List.map_append]
      · rw [List.length_append, lengthThese, length, List.filter_cons]
        cases guards code range with
        | true => rw [if_pos rfl, List.length_cons, Bool.toNat_true, Nat.add_comm]
        | false => rw [if_neg Bool.false_ne_true, Bool.toNat_false, Nat.zero_add]

theorem gives_code [Libraries] (m : Method) (qualified : String) (filled : m.code.isEmpty = false) :
    Gives (codeBytes m qualified) (Embodies (codeLists m)) := by
  intro b b' bytes done
  obtain ⟨lines, b₁, layout, code, written, b₂, attributes, ready, laid, emitted, ranged, tabled, rfl⟩ :=
    code_bytes_parts m qualified b b' bytes done
  have lays : Lays m qualified lines layout :=
    ⟨operands_lines_onto [] m.code.toList b b₁ lines ready, Assembler.laid_out_layout _ lines layout laid⟩
  obtain ⟨t, isTable, counted⟩ := gives_local_attributes _ layout m.locals b₂ b' attributes tabled
  have each := Gives.map_m m.tryRanges (gives_range lays) b₁ b₂ written ranged
  obtain ⟨rows, areRows, length⟩ := exists_ranges _ m.tryRanges written each
  refine ⟨.code ⟨maxStack m, maxLocals m, code, ⟨UInt16.ofNat rows.length, rows⟩, t⟩, ?_, ?_⟩
  · rw [isTable, areRows, List.length_map, ← List.flatMap_def]
    simp only [AttributeBody.write, CodeRow.write, Table.write, List.append_assoc]
    rfl
  · rw [AttributeBody.counts, CodeRow.counts, counted, codeLists, filled]
    simp [Table.counts, noCounts, Count.of, length]

theorem gives_method [Libraries] (className : String) (m : Method) : Gives
    (methodBytes className m) fun bytes =>
    ∃ row : MemberRow, bytes = row.write ∧ row.counts = (methodLists m).map Count.of := by
  rw [method_bytes_eq]
  refine (gives_index _).bind fun name ⟨nameIndex, isName⟩ => ?_
  refine (gives_index _).bind fun descriptor ⟨index, isDescriptor⟩ => ?_
  have coded : Gives (codeAttribute className m) fun attrs => Places attrs (!m.code.isEmpty).toNat (codeLists m) := by
    unfold codeAttribute
    cases filled : m.code.isEmpty with
    | true =>
        rw [codeLists, filled]
        exact .pure [] .none
    | false => exact gives_single "Code" _ _ (gives_code m _ filled)
  refine coded.bind fun code coded => (gives_exceptions m).bind fun exceptions thrown =>
    (gives_signature m.signature).bind fun signature signed =>
      (gives_annotations m.annotations).bind fun annotations annotated => ?_
  obtain ⟨t, isTable, counted⟩ := (((coded.append thrown).append signed).append annotated).written
  rw [List.append_nil] at counted
  exact .pure _ ⟨⟨m.access.bits, nameIndex, index, t⟩, by rw [isName, isDescriptor, isTable]; rfl, counted⟩

theorem gives_body [Libraries] (c : Class) (fields : List Field) (methods : List Method) :
    Gives (bodyBytes c fields methods) fun bytes => ∃ body : FileBody,
      bytes = body.write ∧ body.counts = (classLists c fields methods).map Count.of := by
  rw [body_bytes_eq]
  refine (gives_index _).bind fun name ⟨nameIndex, isName⟩ => ?_
  refine (gives_index _).bind fun superName ⟨superIndex, isSuper⟩ => ?_
  refine (gives_indices .interfaces c.interfaces _).bind fun interfaces ⟨i, areInterfaces, countedInterfaces⟩ => ?_
  refine (gives_list_bytes .fields fields fieldBytes MemberRow.write MemberRow.counts fieldLists
    gives_field).bind fun fieldRows ⟨f, areFields, countedFields⟩ => ?_
  refine (gives_list_bytes .methods methods _ MemberRow.write MemberRow.counts methodLists
    (gives_method c.name)).bind fun methodRows ⟨m, areMethods, countedMethods⟩ => ?_
  refine (gives_signature c.signature).bind fun signature signed =>
    (gives_annotations c.annotations).bind fun annotations annotated =>
      (gives_bootstraps c.bootstrapMethods).bind fun bootstrap placed => ?_
  obtain ⟨t, isTable, counted⟩ := ((signed.append annotated).append placed).written
  refine .pure _ ⟨⟨c.access.bits, nameIndex, superIndex, i, f, m, t⟩, ?_, ?_⟩
  · rw [isName, isSuper, areInterfaces, areFields, areMethods, isTable]
    rfl
  · rw [FileBody.counts, countedInterfaces, countedFields, countedMethods, counted]
    simp only [classLists, List.map_append, List.nil_append]

end Bodies

section Files

theorem Count.of_right (list : Listing × Nat) :
    (Count.of list).written.toNat = (Count.of list).rows ↔ list.2 ≤ 65535 := by
  have small : (UInt16.ofNat list.2).toNat < 65536 := (UInt16.ofNat list.2).toNat_lt
  change (UInt16.ofNat list.2).toNat = list.2 ↔ list.2 ≤ 65535
  constructor
  · intro same
    omega
  · intro few
    exact UInt16.toNat_ofNat_of_lt (Nat.lt_succ_of_le few)

theorem encode_rows [Libraries] (p : Program) (id : ClassId) (c : Class) (bytes : List UInt8)
    (found : p.class? id = some c) (written : encode p id = .ok bytes) :
    ∃ (pool : PoolBuilder) (body : FileBody),
      bytes = Bytes.u32 magic ++ Bytes.u16 0 ++ Bytes.u16 (versionOf p c) ++ pool.write ++ body.write ∧
      body.counts = (classLists c (liveFields p c) (liveMethods p c)).map Count.of := by
  obtain ⟨rest, b, ran, isBytes⟩ := encode_parts p id c bytes found written
  obtain ⟨body, isBody, counted⟩ := gives_body c _ _ {} b rest ran
  exact ⟨b, body, by rw [isBytes, isBody], counted⟩

-- So the counts in the file are those of the lists, and agree with what stands behind them exactly if
-- no list of the class is too long for its count. The number of attributes never is.
theorem encode_counts [Libraries] (p : Program) (id : ClassId) (c : Class) (bytes : List UInt8)
    (found : p.class? id = some c) (written : encode p id = .ok bytes) :
    ∃ (pool : PoolBuilder) (body : FileBody),
      bytes = Bytes.u32 magic ++ Bytes.u16 0 ++ Bytes.u16 (versionOf p c) ++ pool.write ++ body.write ∧
      body.counts = (classLists c (liveFields p c) (liveMethods p c)).map Count.of ∧
      ((∀ count ∈ body.counts, count.written.toNat = count.rows) ↔
        ∀ list ∈ classLists c (liveFields p c) (liveMethods p c), list.2 ≤ 65535) := by
  obtain ⟨pool, body, isBytes, counted⟩ := encode_rows p id c bytes found written
  refine ⟨pool, body, isBytes, counted, ?_⟩
  rw [counted, List.forall_mem_map]
  exact forall₂_congr fun list _ => Count.of_right list

theorem encode_counts_gallery : museum.class? ⟨1⟩ = some gallery ∧ ∃ bytes, encode museum ⟨1⟩ = .ok bytes ∧
    ∃ (pool : PoolBuilder) (body : FileBody),
      bytes = Bytes.u32 magic ++ Bytes.u16 0 ++ Bytes.u16 50 ++ pool.write ++ body.write ∧
      body.counts = (classLists gallery [glyph] [promised, switching]).map Count.of ∧
      ∀ count ∈ body.counts, count.written.toNat = count.rows := by
  refine ⟨by decide, ?_⟩
  obtain ⟨bytes, written⟩ := except_ok (encode museum ⟨1⟩) (by decide +kernel)
  obtain ⟨pool, body, isBytes, counted, right⟩ :=
    encode_counts museum ⟨1⟩ gallery bytes (by decide) written
  exact ⟨bytes, written, pool, body, isBytes, counted, right.mpr (by decide +kernel)⟩

-- A class that names one interface over and over.
def crowd (n : Nat) : Class where
  name := "A"
  superName := none
  interfaces := List.replicate n "I"
  signature := none
  access := ⟨0x0021⟩
  version := 49
  bootstrapMethods := []
  annotations := []
  fields := []
  methods := []

def crowded (n : Nat) : Program where
  classes := ⟨[(⟨1⟩, crowd n)]⟩

theorem class_crowded (n : Nat) : (crowded n).class? ⟨1⟩ = some (crowd n) := rfl

theorem map_m_replicate {α β : Type} (f : α → Encoder β) (a : α) (r : β) (b : PoolBuilder)
    (again : f a b = .ok (r, b)) (n : Nat) :
    (List.replicate n a).mapM f b = .ok (List.replicate n r, b) := by
  induction n with
  | zero => rfl
  | succ n ih =>
      rw [List.replicate_succ, List.mapM_cons, state_t_bind_ok _ _ _ _ _ again,
        state_t_bind_ok _ _ _ _ _ ih]
      rfl

theorem encode_crowded [Libraries] (n : Nat) : ∃ bytes, encode (crowded (n + 1)) ⟨1⟩ = .ok bytes := by
  let ask (name : String) : Encoder (List UInt8) := indexBytes (PoolBuilder.className name)
  obtain ⟨row, b, b', first, second, third⟩ : ∃ row b b', ask "A" {} = .ok (Bytes.u16 2, b) ∧
      ask "I" b = .ok (row, b') ∧ ask "I" b' = .ok (row, b') := ⟨_, _, _, rfl, rfl, rfl⟩
  have rows : (List.replicate (n + 1) "I").mapM ask b = .ok (row :: List.replicate n row, b') := by
    rw [List.replicate_succ, List.mapM_cons, state_t_bind_ok _ _ _ _ _ second,
      state_t_bind_ok _ _ _ _ _ (map_m_replicate ask "I" row b' third n)]
    rfl
  obtain ⟨listing, listed⟩ : ∃ bytes, listBytes (List.replicate (n + 1) "I") ask b = .ok (bytes, b') :=
    ⟨_, state_t_bind_ok _ _ _ _ _ rows⟩
  obtain ⟨body, ran⟩ : ∃ body, bodyBytes (crowd (n + 1)) [] [] {} = .ok (body, b') := by
    rw [body_bytes_eq]
    exact ⟨_, (state_t_bind_ok (ask "A") _ {} b _ first).trans
      ((state_t_bind_ok (indexBytes (pure 0)) _ b b _ rfl).trans
        (state_t_bind_ok (listBytes (List.replicate (n + 1) "I") ask) _ b b' _ listed))⟩
  refine ⟨Bytes.u32 magic ++ Bytes.u16 0 ++ Bytes.u16 49 ++ b'.write ++ body, ?_⟩
  change (bodyBytes (crowd (n + 1)) [] [] {} >>= fun result => _) = _
  rw [ran]
  rfl

theorem crowded_counts [Libraries] (n : Nat) : ∃ bytes, encode (crowded (n + 1)) ⟨1⟩ = .ok bytes ∧
    ∃ (pool : PoolBuilder) (body : FileBody),
      bytes = Bytes.u32 magic ++ Bytes.u16 0 ++ Bytes.u16 49 ++ pool.write ++ body.write ∧
      Count.of (.interfaces, n + 1) ∈ body.counts := by
  obtain ⟨bytes, written⟩ := encode_crowded n
  obtain ⟨pool, body, isBytes, counted⟩ := encode_rows _ _ _ bytes (class_crowded (n + 1)) written
  refine ⟨bytes, written, pool, body, isBytes, ?_⟩
  have length : (crowd (n + 1)).interfaces.length = n + 1 := List.length_replicate
  rw [counted, classLists, length]
  exact List.mem_map_of_mem (.head _)

-- The interfaces of this class are counted as none.
theorem crowded_miscounted : ∃ bytes, encode (crowded 65536) ⟨1⟩ = .ok bytes ∧
    ∃ (pool : PoolBuilder) (body : FileBody),
      bytes = Bytes.u32 magic ++ Bytes.u16 0 ++ Bytes.u16 49 ++ pool.write ++ body.write ∧
      ⟨.interfaces, 0, 65536⟩ ∈ body.counts :=
  crowded_counts 65535

end Files

end ClassFile

end JvmEdit
