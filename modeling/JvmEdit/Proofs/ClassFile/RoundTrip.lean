import JvmEdit.Libraries.Standard
import JvmEdit.Proofs.ClassFile.CodeAttribute
import JvmEdit.Proofs.ClassFile.Lines
import JvmEdit.Proofs.ClassFile.Order
import JvmEdit.Proofs.Flow.Paths
set_option autoImplicit false

namespace JvmEdit

namespace Assembler

theorem lookup_filter (cases : List (Int32 × LabelId)) (key : Int32) :
    cases.lookup key = ((cases.filter fun c => key == c.1).head?).map Prod.snd := by
  induction cases with
  | nil => rfl
  | cons c cases ih =>
      rw [List.lookup_cons, List.filter_cons]
      cases same : key == c.1 with
      | true => rfl
      | false => exact ih

def keyLe (a b : Int32 × LabelId) : Bool := a.1 ≤ b.1

theorem key_le_trans (a b c : Int32 × LabelId) (first : keyLe a b = true) (second : keyLe b c = true) :
    keyLe a c = true :=
  decide_eq_true (Int32.le_trans (of_decide_eq_true first) (of_decide_eq_true second))

theorem key_le_total (a b : Int32 × LabelId) : (keyLe a b || keyLe b a) = true := by
  rw [Bool.or_eq_true]
  exact (Int32.le_total a.1 b.1).imp decide_eq_true decide_eq_true

theorem sorted_cases (cases : List (Int32 × LabelId)) :
    (cases.mergeSort fun a b => a.1 ≤ b.1).Pairwise fun a b => a.1 ≤ b.1 :=
  (List.pairwise_mergeSort key_le_trans key_le_total cases).imp of_decide_eq_true

theorem lookup_sorted (cases : List (Int32 × LabelId)) (key : Int32) :
    (cases.mergeSort fun a b => a.1 ≤ b.1).lookup key = cases.lookup key := by
  let same := fun c : Int32 × LabelId => key == c.1
  have equal : (cases.filter same).Pairwise fun a b => keyLe a b = true := by
    refine List.pairwise_of_forall_mem_list fun a memberA b memberB => ?_
    rw [keyLe, ← eq_of_beq (List.mem_filter.mp memberA).2, ← eq_of_beq (List.mem_filter.mp memberB).2]
    exact decide_eq_true (Int32.le_refl key)
  have kept : (cases.filter same).Sublist (cases.mergeSort fun a b => a.1 ≤ b.1) :=
    List.sublist_mergeSort key_le_trans key_le_total equal List.filter_sublist
  have within : (cases.filter same).Sublist ((cases.mergeSort fun a b => a.1 ≤ b.1).filter same) := by
    have both := kept.filter same
    simp only [List.filter_filter, Bool.and_self] at both
    exact both
  have permuted := (List.mergeSort_perm cases fun a b => a.1 ≤ b.1).filter same
  have unchanged := within.eq_of_length permuted.length_eq.symm
  rw [lookup_filter, lookup_filter cases key]
  exact congrArg (fun found => (List.head? found).map Prod.snd) unchanged.symm

theorem key_bounds_spec (cases : List (Int32 × LabelId)) (c : Int32 × LabelId) (member : c ∈ cases) :
    (keyBounds cases).1 ≤ c.1.toInt ∧ c.1.toInt ≤ (keyBounds cases).2 := by
  have isKey : c.1.toInt ∈ cases.map fun c => c.1.toInt := List.mem_map_of_mem member
  obtain ⟨first, rest, rfl⟩ := List.exists_cons_of_ne_nil (List.ne_nil_of_mem member)
  obtain ⟨isMin, isMax⟩ := key_bounds_extremes first rest
  exact ⟨(List.min?_eq_some_iff.mp isMin).2 _ isKey, (List.max?_eq_some_iff.mp isMax).2 _ isKey⟩

theorem key_in_table (otherwise : LabelId) (cases : List (Int32 × LabelId)) (c : Int32 × LabelId)
    (member : c ∈ cases) : (c.1, (cases.lookup c.1).getD otherwise) ∈
      writtenCases Opcode.tableSwitch otherwise cases := by
  obtain ⟨low, high⟩ := key_bounds_spec cases c member
  have key : Int32.ofInt ((keyBounds cases).1 + ((c.1.toInt - (keyBounds cases).1).toNat : Nat)) = c.1 := by
    have distance : (keyBounds cases).1 + ((c.1.toInt - (keyBounds cases).1).toNat : Nat) =
        c.1.toInt := by omega
    rw [distance, Int32.ofInt_toInt]
  rw [writtenCases, if_pos rfl]
  refine List.mem_map.mpr ⟨(c.1.toInt - (keyBounds cases).1).toNat, List.mem_range.mpr ?_, ?_⟩
  · have span : keySpan cases = ((keyBounds cases).2 - (keyBounds cases).1 + 1).toNat := rfl
    omega
  · simp only [key]

theorem table_entry (otherwise : LabelId) (cases : List (Int32 × LabelId)) (c : Int32 × LabelId)
    (member : c ∈ writtenCases Opcode.tableSwitch otherwise cases) :
    c.2 = (cases.lookup c.1).getD otherwise := by
  rw [writtenCases, if_pos rfl] at member
  obtain ⟨i, _, rfl⟩ := List.mem_map.mp member
  rfl

theorem lookup_written_cases (op : Opcode) (otherwise : LabelId) (cases : List (Int32 × LabelId))
    (key : Int32) : ((writtenCases op otherwise cases).lookup key).getD otherwise =
      (cases.lookup key).getD otherwise := by
  by_cases isTable : op = Opcode.tableSwitch
  · rw [isTable]
    cases found : (writtenCases Opcode.tableSwitch otherwise cases).lookup key with
    | some label =>
        obtain ⟨before, after, split, _⟩ := List.lookup_eq_some_iff.mp found
        have member : (key, label) ∈ writtenCases Opcode.tableSwitch otherwise cases := by
          rw [split]
          exact List.mem_append_right _ (List.mem_cons_self ..)
        exact table_entry otherwise cases (key, label) member
    | none =>
        have noCase : cases.lookup key = none := by
          refine List.lookup_eq_none_iff.mpr fun c member => ?_
          have entry := key_in_table otherwise cases c member
          exact List.lookup_eq_none_iff.mp found (c.1, (cases.lookup c.1).getD otherwise) entry
        rw [noCase]
  · rw [writtenCases, if_neg isTable, lookup_sorted]

theorem table_keys (otherwise : LabelId) (cases : List (Int32 × LabelId)) :
    (writtenCases Opcode.tableSwitch otherwise cases).map (fun c => c.1.toInt) =
      (List.range (keySpan cases)).map fun (i : Nat) => (keyBounds cases).1 + i := by
  rw [writtenCases, if_pos rfl, List.map_map]
  refine List.map_congr_left fun i inside => ?_
  have inside := List.mem_range.mp inside
  by_cases none : cases = []
  · rw [none] at inside
    exact absurd inside (Nat.not_lt_zero i)
  · obtain ⟨low, high, bounds, _⟩ := key_bounds_word cases none
    have lowest := low.le_toInt
    have highest := high.toInt_lt
    have span : keySpan cases = (high.toInt - low.toInt + 1).toNat := by rw [keySpan, bounds]
    simp only [Function.comp_apply, bounds]
    exact Int32.toInt_ofInt_of_le (by omega) (by omega)

-- What becomes of the cases of a switch.
structure Rewritten (op : Opcode) (otherwise : LabelId) (cases written : List (Int32 × LabelId)) :
    Prop where
  same : ∀ key, (written.lookup key).getD otherwise = (cases.lookup key).getD otherwise
  dense : op = Opcode.tableSwitch → written.map (fun c => c.1.toInt) =
    (List.range (keySpan cases)).map fun (i : Nat) => (keyBounds cases).1 + i
  sorted : op ≠ Opcode.tableSwitch → written.Perm cases ∧ written.Pairwise fun a b => a.1 ≤ b.1

theorem rewritten_cases (op : Opcode) (otherwise : LabelId) (cases : List (Int32 × LabelId)) :
    Rewritten op otherwise cases (writtenCases op otherwise cases) := by
  refine ⟨lookup_written_cases op otherwise cases, ?_, ?_⟩
  · rintro rfl
    exact table_keys otherwise cases
  · intro isLookup
    rw [writtenCases, if_neg isLookup]
    exact ⟨List.mergeSort_perm cases _, sorted_cases cases⟩

end Assembler

namespace Assembler

def Line.aims (line : Line) : List LabelId :=
  match line.operand with
  | .jump label => [label]
  | .switch otherwise cases => otherwise :: (writtenCases line.opcode otherwise cases).map Prod.snd
  | _ => []

theorem knows_distance (c : Context) (layout : Layout) (offset : Nat) (label : LabelId)
    (distance : Int) (found : c.distance layout offset label = .ok distance) : c.Knows label :=
  knows_of_target c layout label _ (distance_place c layout offset label distance found).2

theorem knows_relative (c : Context) (layout : Layout) (offset : Nat) (label : LabelId)
    (bytes : List UInt8) (written : i32 <$> c.distance layout offset label = .ok bytes) :
    c.Knows label := by
  obtain ⟨distance, found, _⟩ := except_map _ _ _ written
  exact knows_distance c layout offset label distance found

theorem knows_each {α : Type} (c : Context) (items : List α) (f : α → Except EncodeError (List UInt8))
    (label : α → LabelId) (entries : List (List UInt8)) (written : items.mapM f = .ok entries)
    (each : ∀ item bytes, f item = .ok bytes → c.Knows (label item)) :
    ∀ item ∈ items, c.Knows (label item) := by
  have ran := except_map_m f items entries written
  clear written
  induction ran with
  | nil =>
      intro item member
      cases member
  | cons first _ ih =>
      intro item member
      rcases List.mem_cons.mp member with rfl | later
      · exact each _ _ first
      · exact ih item later

theorem knows_switch (c : Context) (layout : Layout) (offset : Nat) (op : Opcode)
    (otherwise : LabelId) (cases : List (Int32 × LabelId)) (bytes : List UInt8)
    (written : c.switchBytes layout offset op otherwise cases = .ok bytes) :
    c.Knows otherwise ∧ ∀ label ∈ (writtenCases op otherwise cases).map Prod.snd, c.Knows label := by
  obtain ⟨default, isDefault, written⟩ := except_bind _ _ _ written
  refine ⟨knows_relative c layout offset otherwise default isDefault, ?_⟩
  intro label member
  by_cases isTable : op = Opcode.tableSwitch
  · rw [if_pos isTable] at written
    obtain ⟨entries, isEntries, _⟩ := except_bind _ _ _ written
    rw [writtenCases, if_pos isTable, List.map_map] at member
    obtain ⟨i, inside, rfl⟩ := List.mem_map.mp member
    exact knows_each c _ _ (fun (i : Nat) =>
      (cases.lookup (Int32.ofInt ((keyBounds cases).1 + i))).getD otherwise) entries isEntries
      (fun i bytes => knows_relative c layout offset _ bytes) i inside
  · rw [if_neg isTable] at written
    obtain ⟨entries, isEntries, _⟩ := except_bind _ _ _ written
    rw [writtenCases, if_neg isTable] at member
    obtain ⟨k, inside, rfl⟩ := List.mem_map.mp member
    refine knows_each c _ _ Prod.snd entries isEntries ?_ k inside
    rintro ⟨key, label⟩ bytes done
    obtain ⟨distance, isDistance, _⟩ := except_bind _ _ _ done
    exact knows_relative c layout offset label distance isDistance

theorem knows_line [Libraries] (c : Context) (layout : Layout) (offset : Nat) (isFar : Bool)
    (line : Line)
    (bytes : List UInt8) (written : c.lineBytes layout offset isFar line = .ok bytes) :
    ∀ label ∈ line.aims, c.Knows label := by
  obtain ⟨op, operand, index⟩ := line
  intro label member
  cases operand with
  | jump target =>
      cases List.mem_singleton.mp member
      obtain ⟨distance, found, _⟩ := except_bind _ _ _ written
      exact knows_distance c layout offset label distance found
  | switch otherwise cases =>
      obtain ⟨default, others⟩ := knows_switch c layout offset op otherwise cases bytes written
      rcases List.mem_cons.mp member with rfl | member
      · exact default
      · exact others label member
  | _ => cases member

theorem knows_emit [Libraries] (c : Context) (layout : Layout) (reversed : List (List UInt8))
    (position : Nat)
    (lines : List Line) (far : List Bool) (bytes : List UInt8) (same : far.length = lines.length)
    (done : c.emitOnto layout reversed position lines far = .ok bytes) :
    ∀ line ∈ lines, ∀ label ∈ line.aims, c.Knows label := by
  induction lines generalizing reversed position far with
  | nil =>
      intro line member
      cases member
  | cons first lines ih =>
      cases far with
      | nil => cases same
      | cons isFar far =>
          obtain ⟨chunk, written, later⟩ := except_bind _ _ _ done
          intro line member
          rcases List.mem_cons.mp member with rfl | member
          · exact knows_line c layout _ isFar line chunk written
          · exact ih _ _ far (Nat.succ.inj same) later line member

end Assembler

namespace ClassFile

open Assembler (Context)

-- A body of the shape that bodies are read in.
structure DecoderShaped (m : Method) : Prop where
  shaped : ∀ i ∈ m.code.toList, Code.Shaped i.opcode i.operand
  unique : (m.code.toList.filterMap Instruction.label?).Nodup

theorem forall₂_left {α β : Type} {relation : α → β → Prop} {holds : α → Prop} {as : List α}
    {bs : List β} (all : List.Forall₂ relation as bs) (each : ∀ a b, relation a b → holds a) :
    ∀ a ∈ as, holds a := by
  induction all with
  | nil =>
      intro a member
      cases member
  | cons first _ ih =>
      intro a member
      rcases List.mem_cons.mp member with rfl | later
      · exact each _ _ first
      · exact ih a later

theorem rows_kept (c : Context) (layout : Assembler.Layout) (pool : Pool) (ranges : List TryRange)
    (rows : List (List (List UInt8))) (written : List.Forall₂ (fun range rows =>
      RangeRows c layout range pool rows) ranges rows) :
    List.Forall₂ (fun range row => Reader.Reads (readRange pool) row (rawRange c layout range))
      (ranges.filter (isKept c layout)) rows.flatten := by
  induction written with
  | nil => exact .nil
  | @cons range row ranges rows first _ ih =>
      rw [List.filter_cons, List.flatten_cons]
      cases kept : isKept c layout range with
      | true =>
          obtain ⟨_, bytes, rfl, reads⟩ := first.kept kept
          rw [if_pos rfl]
          exact .cons reads ih
      | false =>
          rw [first.dropped kept, if_neg Bool.false_ne_true]
          exact ih

namespace CodeParts

variable (parts : CodeParts) (c : Context) (m : Method)

def labels : List LabelId :=
  parts.lines.flatMap Assembler.Line.aims ++
    m.tryRanges.flatMap (fun range => [range.start, range.stop]) ++
    (m.tryRanges.filter (isKept c parts.layout)).map (fun range => range.handler) ++
    m.locals.flatMap fun v => [v.start, v.stop]

-- What is written, with each label by the number of instructions before it. A range that ends
-- where it starts or before is dropped; the range of a local that ends before it starts ends
-- where it starts.
def plan : Code.Plan :=
  let spot := c.spot parts.lines parts.layout.far
  { instructions := Assembler.rebuilt spot 0 parts.lines parts.layout.far
    ranges := (m.tryRanges.filter (isKept c parts.layout)).map fun range =>
      ⟨spot range.start, spot range.stop, spot range.handler, range.catchType⟩
    locals := m.locals.map fun v => ⟨v.name, v.descriptor, v.signature, spot v.start,
      if c.place parts.layout v.stop < c.place parts.layout v.start then spot v.start
      else spot v.stop, v.slot⟩ }

end CodeParts

-- What a written body is read as, part by part. The bytes as a whole are read as these parts
-- while no count overflows and no two locals share a start and a slot.
structure ReadBack [Libraries] (m : Method) (c : Context) (parts : CodeParts) (pool : Pool)
    (bytes : List UInt8) (body : Code.Body) : Prop where
  lines : List.Forall₂ (fun i (line : Assembler.Line) => line.opcode = i.opcode ∧
    line.operand = i.operand ∧ line.Resolved pool) m.code.toList parts.lines
  ranges : List.Forall₂ (fun range row => Reader.Reads (readRange pool) row
    (rawRange c parts.layout range)) (m.tryRanges.filter (isKept c parts.layout)) parts.ranges
  locals : List.Forall₂ (fun v rows => LocalRows c parts.layout v pool rows) m.locals parts.locals
  whole : parts.ranges.length ≤ 65535 → parts.locals.length ≤ 65535 →
    Separate c parts.layout m.locals → Reader.Reads (readCode pool false) bytes
      ⟨maxStack m, maxLocals m, parts.code,
        (m.tryRanges.filter (isKept c parts.layout)).map (rawRange c parts.layout),
        m.locals.map (rawLocal c parts.layout)⟩
  decoded : Code.decode parts.code pool
    ((m.tryRanges.filter (isKept c parts.layout)).map (rawRange c parts.layout))
    (m.locals.map (rawLocal c parts.layout)) = .ok body
  tidy : body.Tidy
  plan : body.plan = parts.plan c m
  marked : ∀ label ∈ parts.labels c m, ∃ position, Flow.Marks m.code.toList position label
  stands : ∀ position label, Flow.Marks m.code.toList position label →
    c.place parts.layout label = parts.layout.offset position ∧
      c.spot parts.lines parts.layout.far label =
        ⟨Assembler.ordinal parts.lines parts.layout.far position⟩

theorem stop_raw_local (c : Context) (layout : Assembler.Layout) (v : LocalVariable)
    (small : ∀ label, c.place layout label ≤ 65535) : (rawLocal c layout v).stop =
      if c.place layout v.stop < c.place layout v.start then c.place layout v.start
      else c.place layout v.stop := by
  have start := to_nat_offset _ (small v.start)
  have stop := to_nat_offset _ (small v.stop)
  unfold Code.RawLocal.stop rawLocal
  dsimp only
  by_cases before : c.place layout v.stop < c.place layout v.start
  · rw [if_pos before, if_pos (by rw [UInt16.lt_iff_toNat_lt, start, stop]; exact before), start]
    rfl
  · have after : UInt16.ofNat (c.place layout v.start) ≤ UInt16.ofNat (c.place layout v.stop) := by
      rw [UInt16.le_iff_toNat_le, start, stop]
      omega
    rw [if_neg before, if_neg (by rw [UInt16.lt_iff_toNat_lt, start, stop]; exact before),
      UInt16.toNat_sub_of_le _ _ after, start, stop]
    omega

section Decoded

variable (c : Context) (layout : Assembler.Layout) (all : List Assembler.Line)
  (laid : Assembler.LaidOut c all layout) (ranges : List TryRange) (locals : List LocalVariable)

include laid

theorem aims_mem_starts (o : Nat) (member : o ∈ Code.aims
    (Assembler.listing c layout 0 all layout.far) (ranges.map (rawRange c layout))
      (locals.map (rawLocal c layout))) :
    o ∈ Code.starts (Assembler.listing c layout 0 all layout.far) layout.length := by
  have small := laid.place_small
  have placed := laid.place_mem_starts
  rcases List.mem_append.mp member with member | isLocal
  · rcases List.mem_append.mp member with isTarget | isRange
    · obtain ⟨i, inside, isTarget⟩ := List.mem_flatMap.mp isTarget
      exact laid.targets_listing 0 all layout.far rfl rfl i inside o isTarget
    · obtain ⟨raw, inside, isOffset⟩ := List.mem_flatMap.mp isRange
      obtain ⟨range, _, rfl⟩ := List.mem_map.mp inside
      simp only [rawRange, to_nat_offset _ (small _), List.mem_cons, List.not_mem_nil, or_false]
        at isOffset
      rcases isOffset with rfl | rfl | rfl
      · exact placed range.start
      · exact placed range.stop
      · exact placed range.handler
  · obtain ⟨raw, inside, isOffset⟩ := List.mem_flatMap.mp isLocal
    obtain ⟨v, _, rfl⟩ := List.mem_map.mp inside
    rw [stop_raw_local c layout v small] at isOffset
    simp only [rawLocal, to_nat_offset _ (small _), List.mem_cons, List.not_mem_nil, or_false]
      at isOffset
    rcases isOffset with rfl | rfl
    · exact placed v.start
    · split
      · exact placed v.start
      · exact placed v.stop

theorem raw_plan_listing (bounded : ∀ label position, c.labels.lookup label = some position →
    position ≤ all.length) :
    Code.rawPlan (Assembler.listing c layout 0 all layout.far) (ranges.map (rawRange c layout))
        (locals.map (rawLocal c layout))
        (fun o => ⟨Code.rank (Assembler.listing c layout 0 all layout.far) o⟩) =
      { instructions := Assembler.rebuilt (c.spot all layout.far) 0 all layout.far
        ranges := ranges.map fun range => ⟨c.spot all layout.far range.start,
          c.spot all layout.far range.stop, c.spot all layout.far range.handler, range.catchType⟩
        locals := locals.map fun v => ⟨v.name, v.descriptor, v.signature,
          c.spot all layout.far v.start,
          if c.place layout v.stop < c.place layout v.start then c.spot all layout.far v.start
          else c.spot all layout.far v.stop, v.slot⟩ } := by
  have small := laid.place_small
  have ranked := laid.ranked_eq bounded
  have place : ∀ label, (⟨Code.rank (Assembler.listing c layout 0 all layout.far)
      (c.place layout label)⟩ : LabelId) = c.spot all layout.far label := congrFun ranked
  have instructions := laid.aimed_listing 0 all layout.far rfl rfl
  rw [ranked, Assembler.ordinal_zero] at instructions
  simp only [Code.rawPlan]
  rw [instructions, List.map_map, List.map_map]
  congr 1
  · refine List.map_congr_left fun range _ => ?_
    simp only [Function.comp_apply, rawRange, to_nat_offset _ (small _), place]
  · refine List.map_congr_left fun v _ => ?_
    simp only [Function.comp_apply, stop_raw_local c layout v small]
    simp only [rawLocal, to_nat_offset _ (small _), place]
    congr 1
    split
    · exact place v.start
    · exact place v.stop

end Decoded

theorem bounded_labels (m : Method) (qualified : String) (label : LabelId) (position : Nat)
    (found : (codeContext m qualified).labels.lookup label = some position) :
    Flow.Marks m.code.toList position label ∧ position < m.code.toList.length := by
  have marks := Flow.marks_of_lookup m.code.toList label position found
  obtain ⟨i, here, _⟩ := Option.bind_eq_some_iff.mp marks
  exact ⟨marks, (List.getElem?_eq_some_iff.mp here).1⟩

theorem stands_marked (m : Method) (qualified : String) (shaped : DecoderShaped m)
    (parts : CodeParts) (position : Nat) (label : LabelId)
    (marks : Flow.Marks m.code.toList position label) :
    (codeContext m qualified).place parts.layout label = parts.layout.offset position ∧
      (codeContext m qualified).spot parts.lines parts.layout.far label =
        ⟨Assembler.ordinal parts.lines parts.layout.far position⟩ := by
  have found : (codeContext m qualified).labels.lookup label = some position :=
    Flow.lookup_label_table m.code.toList shaped.unique position label marks
  refine ⟨?_, ?_⟩
  · rw [Context.place, found]
    rfl
  · rw [Context.spot, found]
    rfl

theorem listing_parts [Libraries] (m : Method) (qualified : String) (shaped : DecoderShaped m)
    (parts : CodeParts) (pool : Pool) (lines : List.Forall₂ (fun i (line : Assembler.Line) =>
      line.opcode = i.opcode ∧ line.operand = i.operand ∧ line.Resolved pool)
        m.code.toList parts.lines)
    (isLayout : (codeContext m qualified).layout parts.lines = .ok parts.layout)
    (isCode : (codeContext m qualified).emit parts.layout parts.lines = .ok parts.code) :
    parts.code.length = parts.layout.length ∧ Code.readInstructions pool parts.code =
      .ok (Assembler.listing (codeContext m qualified) parts.layout 0 parts.lines parts.layout.far) := by
  have laid := Assembler.laid_out_layout _ parts.lines parts.layout isLayout
  have sameLength := lines.length_eq
  have each : ∀ line ∈ parts.lines, Code.Shaped line.opcode line.operand ∧ line.Resolved pool := by
    intro line member
    obtain ⟨position, inside, isLine⟩ := List.mem_iff_getElem.mp member
    obtain ⟨op, operand, resolved⟩ := lines.get (by omega) inside
    rw [List.get_eq_getElem, isLine] at op operand resolved
    rw [op, operand]
    exact ⟨shaped.shaped _ (List.get_mem ..), resolved⟩
  exact Assembler.emit_spec pool _ parts.lines parts.layout parts.code laid
    (fun line member => (each line member).1) (fun line member => (each line member).2) isCode

theorem read_back_parts [Libraries] (m : Method) (qualified : String) (shaped : DecoderShaped m)
    (parts : CodeParts) (pool : Pool) (lines : List.Forall₂ (fun i (line : Assembler.Line) =>
      line.opcode = i.opcode ∧ line.operand = i.operand ∧ line.Resolved pool)
        m.code.toList parts.lines)
    (isLayout : (codeContext m qualified).layout parts.lines = .ok parts.layout)
    (isCode : (codeContext m qualified).emit parts.layout parts.lines = .ok parts.code) :
    ∃ body, Code.decode parts.code pool
        ((m.tryRanges.filter (isKept (codeContext m qualified) parts.layout)).map
          (rawRange (codeContext m qualified) parts.layout))
        (m.locals.map (rawLocal (codeContext m qualified) parts.layout)) = .ok body ∧
      parts.code.length ≤ 65535 ∧ body.Tidy ∧ body.plan = parts.plan (codeContext m qualified) m := by
  have laid := Assembler.laid_out_layout _ parts.lines parts.layout isLayout
  have sameLength := lines.length_eq
  obtain ⟨length, read⟩ := listing_parts m qualified shaped parts pool lines isLayout isCode
  have sorted := laid.starts_sorted
  have aimed := aims_mem_starts _ parts.layout parts.lines laid
    (m.tryRanges.filter (isKept (codeContext m qualified) parts.layout)) m.locals
  rw [← length] at sorted aimed
  obtain ⟨body, decoded, tidy, plan⟩ := Code.decode_spec _ _ _ parts.code pool read
    (Assembler.bare_listing _ _ _ _ _) sorted aimed
  refine ⟨body, decoded, Nat.le_trans (Nat.le_of_eq length) laid.bound, tidy, plan.trans ?_⟩
  refine raw_plan_listing _ parts.layout parts.lines laid _ m.locals fun label position found => ?_
  have inside := (bounded_labels m qualified label position found).2
  omega

theorem knows_parts [Libraries] (m : Method) (qualified : String) (parts : CodeParts) (pool : Pool)
    (rows : List (List (List UInt8)))
    (isLayout : (codeContext m qualified).layout parts.lines = .ok parts.layout)
    (isCode : (codeContext m qualified).emit parts.layout parts.lines = .ok parts.code)
    (ranges : List.Forall₂ (fun range rows =>
      RangeRows (codeContext m qualified) parts.layout range pool rows) m.tryRanges rows)
    (locals : List.Forall₂ (fun v rows =>
      LocalRows (codeContext m qualified) parts.layout v pool rows) m.locals parts.locals) :
    ∀ label ∈ parts.labels (codeContext m qualified) m, (codeContext m qualified).Knows label := by
  have laid := Assembler.laid_out_layout _ parts.lines parts.layout isLayout
  have inCode := Assembler.knows_emit _ parts.layout [] 0 parts.lines parts.layout.far parts.code
    laid.marks isCode
  have knowsRange := forall₂_left ranges fun range rows written =>
    (⟨written.start, written.stop, fun kept => (written.kept kept).1⟩ :
      (codeContext m qualified).Knows range.start ∧ (codeContext m qualified).Knows range.stop ∧
        (isKept (codeContext m qualified) parts.layout range = true →
          (codeContext m qualified).Knows range.handler))
  have knowsLocal := forall₂_left locals fun v rows written =>
    (⟨written.start, written.stop⟩ :
      (codeContext m qualified).Knows v.start ∧ (codeContext m qualified).Knows v.stop)
  intro label member
  rcases List.mem_append.mp member with member | isLocal
  · rcases List.mem_append.mp member with member | isHandler
    · rcases List.mem_append.mp member with inLine | isBound
      · obtain ⟨line, inside, isAim⟩ := List.mem_flatMap.mp inLine
        exact inCode line inside label isAim
      · obtain ⟨range, inside, isBound⟩ := List.mem_flatMap.mp isBound
        rcases List.mem_cons.mp isBound with rfl | isBound
        · exact (knowsRange range inside).1
        · cases List.mem_singleton.mp isBound
          exact (knowsRange range inside).2.1
    · obtain ⟨range, inside, rfl⟩ := List.mem_map.mp isHandler
      obtain ⟨inside, kept⟩ := List.mem_filter.mp inside
      exact (knowsRange range inside).2.2 kept
  · obtain ⟨v, inside, isBound⟩ := List.mem_flatMap.mp isLocal
    rcases List.mem_cons.mp isBound with rfl | isBound
    · exact (knowsLocal v inside).1
    · cases List.mem_singleton.mp isBound
      exact (knowsLocal v inside).2

-- A body that is written is read back: from its code and its tables, with the pool however much
-- it has grown since, comes the body that was written, with one label for each place that is
-- referred to. Branches that are too far and switches are as they were written, and lead where
-- they led.
theorem code_bytes_read_back [Libraries] (m : Method) (qualified : String) (b b' b'' : PoolBuilder)
    (bytes : List UInt8) (shaped : DecoderShaped m) (fresh : PoolBuilder.Grows {} b)
    (written : codeBytes m qualified b = .ok (bytes, b')) (grown : PoolBuilder.Grows b' b'') :
    Reader.Reads Pool.read b''.write b''.pool ∧ ∃ parts body,
      Writes m qualified b b''.pool parts bytes ∧
      ReadBack m (codeContext m qualified) parts b''.pool bytes body ∧
      (∀ i ∈ m.code.toList, ∀ label, i.operand = .jump label → Code.isShortBranch i.opcode = true →
        i.opcode ≠ Opcode.goto → i.opcode ≠ Opcode.jsr →
        Assembler.Opposed i.opcode (Assembler.opposite i.opcode)) ∧
      ∀ i ∈ m.code.toList, ∀ otherwise cases, i.operand = .switch otherwise cases →
        Assembler.Rewritten i.opcode otherwise cases
          (Assembler.writtenCases i.opcode otherwise cases) := by
  obtain ⟨lines, b₁, layout, code, rows, b₂, attributes, isLines, isLayout, isCode, isRows,
    isAttributes, isBytes⟩ := code_bytes_parts m qualified b b' bytes written
  let c := codeContext m qualified
  have laid := Assembler.laid_out_layout c lines layout isLayout
  have valid := fresh.valid PoolBuilder.valid_empty
  have grownLines := Assembler.growing_lines_onto [] m.code.toList b b₁ lines isLines
  have validLines := grownLines.valid valid
  have grownRanges := Growing.map_m _ m.tryRanges (growing_range_bytes c layout) b₁ b₂ rows isRows
  have validRanges := grownRanges.valid validLines
  obtain ⟨grownLocals, locals, b₃, isLocals, grownTables, holds⟩ :=
    local_attributes_parts c layout m.locals b₂ b' attributes validRanges isAttributes
  obtain ⟨_, rfl, each⟩ := Assembler.lines_onto_spec [] m.code.toList b b₁ lines valid shaped.shaped
    isLines
  let parts : CodeParts := ⟨lines, layout, code, rows.flatten, locals⟩
  have linesRead : List.Forall₂ (fun i (line : Assembler.Line) => line.opcode = i.opcode ∧
      line.operand = i.operand ∧ line.Resolved b''.pool) m.code.toList parts.lines :=
    each.imp fun _ _ same => ⟨same.1, same.2.1, same.2.2 b'' (grownRanges.trans
      (grownLocals.trans grown))⟩
  have rangesRead := promises_map_m _ _ m.tryRanges (growing_range_bytes c layout)
    (promises_range c layout laid.place_small) b₁ b₂ rows validLines isRows b''
    (grownLocals.trans grown)
  have localsRead := promises_map_m _ _ m.locals (growing_local_bytes c layout)
    (promises_local c layout) b₂ b₃ locals validRanges isLocals b'' (grownTables.trans grown)
  obtain ⟨body, decoded, short, tidy, plan⟩ := read_back_parts m qualified shaped parts b''.pool
    linesRead isLayout isCode
  have known := knows_parts m qualified parts b''.pool rows isLayout isCode rangesRead localsRead
  have marked : ∀ label ∈ parts.labels c m, ∃ position, Flow.Marks m.code.toList position label := by
    intro label member
    obtain ⟨position, found⟩ := known label member
    exact ⟨position, (bounded_labels m qualified label position found).1⟩
  have kept := rows_kept c layout b''.pool m.tryRanges rows rangesRead
  have tables := holds b'' grown parts rfl
  have whole : parts.ranges.length ≤ 65535 → parts.locals.length ≤ 65535 →
      Separate c layout m.locals → Reader.Reads (readCode b''.pool false) bytes
        ⟨maxStack m, maxLocals m, parts.code,
          (m.tryRanges.filter (isKept c layout)).map (rawRange c layout),
          m.locals.map (rawLocal c layout)⟩ := by
    intro fewRanges fewLocals separate
    rw [← foldl_assign_signature c layout m.locals separate, isBytes]
    exact reads_code_parts m c layout b''.pool parts attributes _ short fewRanges fewLocals
      (List.forall₂_map_left_iff.mpr kept) localsRead tables
  refine ⟨PoolBuilder.reads_pool b'' (grown.valid (grownLocals.valid validRanges)), parts, body,
    ⟨⟨b₁, isLines⟩, isLayout, isCode, attributes, tables, isBytes⟩,
    ⟨linesRead, kept, localsRead, whole, decoded, tidy, plan,
      marked, stands_marked m qualified shaped parts⟩, ?_, ?_⟩
  · intro i _ label _ short notGoto notJsr
    exact Assembler.opposed_opposite i.opcode short notGoto notJsr
  · intro i _ otherwise cases _
    exact Assembler.rewritten_cases i.opcode otherwise cases

-- A table whose cases are out of order, a range that is dropped, a typed local, and a label that
-- nothing refers to.
def switching : Method where
  owner := ⟨0⟩
  name := "m"
  descriptor := "()V"
  signature := none
  access := ⟨8⟩
  kind := .method
  exceptions := []
  annotations := []
  code := ⟨[⟨⟨0⟩, Opcode.label, .label ⟨0⟩⟩, ⟨⟨1⟩, Opcode.ldcW, .constant (.string "s")⟩,
    ⟨⟨2⟩, Opcode.astore, .var 300⟩, ⟨⟨3⟩, Opcode.iload0, .simple⟩,
    ⟨⟨4⟩, Opcode.tableSwitch, .switch ⟨1⟩ [(2, ⟨0⟩), (0, ⟨1⟩)]⟩,
    ⟨⟨5⟩, Opcode.label, .label ⟨1⟩⟩, ⟨⟨6⟩, Opcode.goto, .jump ⟨0⟩⟩,
    ⟨⟨7⟩, Opcode.label, .label ⟨2⟩⟩, ⟨⟨8⟩, Opcode.label, .label ⟨3⟩⟩]⟩
  tryRanges := [⟨⟨0⟩, ⟨1⟩, ⟨1⟩, some "E"⟩, ⟨⟨1⟩, ⟨1⟩, ⟨0⟩, none⟩]
  locals := [⟨"s", "LA;", some "TT;", ⟨1⟩, ⟨2⟩, 300, .empty⟩]

theorem code_bytes_read_back_switching : DecoderShaped switching ∧ PoolBuilder.Grows {} {} ∧
    ∃ bytes b, codeBytes switching "C.m()V" {} = .ok (bytes, b) ∧ PoolBuilder.Grows b b ∧
      Reader.Reads Pool.read b.write b.pool ∧ ∃ parts body,
        Writes switching "C.m()V" {} b.pool parts bytes ∧
        ReadBack switching (codeContext switching "C.m()V") parts b.pool bytes body := by
  have shaped : DecoderShaped switching := ⟨by decide +kernel, by decide +kernel⟩
  obtain ⟨⟨bytes, b⟩, written⟩ := except_ok (codeBytes switching "C.m()V" {}) (by decide +kernel)
  obtain ⟨pool, parts, body, writes, readBack, _⟩ :=
    code_bytes_read_back switching "C.m()V" {} b b bytes shaped (.refl {}) written (.refl b)
  exact ⟨shaped, .refl {}, bytes, b, written, .refl b, pool, parts, body, writes, readBack⟩

-- The body of a method, as a reader of class files builds it.
def bodyOf (m : Method) : Code.Body where
  labelCount := (m.code.toList.filterMap Instruction.label?).length
  instructions := m.code.toList.map fun i => (i.opcode, i.operand)
  ranges := m.tryRanges.map fun r => ⟨r.start, r.stop, r.handler, r.catchType⟩
  locals := m.locals.map fun v => ⟨v.name, v.descriptor, v.signature, v.start, v.stop, v.slot⟩

-- A local whose end stands before its start.
def backwards : Method where
  owner := ⟨0⟩
  name := "m"
  descriptor := "()V"
  signature := none
  access := ⟨8⟩
  kind := .method
  exceptions := []
  annotations := []
  code := ⟨[⟨⟨0⟩, Opcode.label, .label ⟨0⟩⟩, ⟨⟨1⟩, Opcode.nop, .simple⟩,
    ⟨⟨2⟩, Opcode.label, .label ⟨1⟩⟩, ⟨⟨3⟩, Opcode.returnVoid, .simple⟩]⟩
  locals := [⟨"x", "I", none, ⟨1⟩, ⟨0⟩, 0, .empty⟩]

-- Its end is read back where its start is.
theorem backwards_shortened : DecoderShaped backwards ∧ ∃ bytes b raw body,
    codeBytes backwards "C.m()V" {} = .ok (bytes, b) ∧
    parse (readCode b.pool false) bytes = .ok raw ∧
    Code.decode raw.bytes b.pool raw.ranges raw.locals = .ok body ∧
    body.plan.locals = [⟨"x", "I", none, ⟨1⟩, ⟨1⟩, 0⟩] ∧
    (bodyOf backwards).plan.locals = [⟨"x", "I", none, ⟨1⟩, ⟨0⟩, 0⟩] := by
  have read : ((codeBytes backwards "C.m()V" {}).toOption.bind fun written =>
      (parse (readCode written.2.pool false) written.1).toOption.bind fun raw =>
        (Code.readInstructions written.2.pool raw.bytes).toOption.map fun is =>
          (raw.bytes, is, raw.ranges, raw.locals)) =
      some ([0x00, 0xb1], [⟨0, 0x00, .ready .simple⟩, ⟨1, 0xb1, .ready .simple⟩], [],
        [⟨1, 0, "x", "I", none, 0⟩]) := by decide +kernel
  refine ⟨⟨by decide +kernel, by decide +kernel⟩, ?_⟩
  cases written : codeBytes backwards "C.m()V" {} with
  | error e =>
      rw [written] at read
      cases read
  | ok result =>
      obtain ⟨bytes, b⟩ := result
      rw [written] at read
      cases parsed : parse (readCode b.pool false) bytes with
      | error e =>
          simp only [Except.toOption, Option.bind_some, parsed] at read
          cases read
      | ok raw =>
          simp only [Except.toOption, Option.bind_some, parsed] at read
          obtain ⟨is, isRead, same⟩ := Option.map_eq_some_iff.mp read
          simp only [Prod.mk.injEq] at same
          obtain ⟨isBytes, rfl, isRanges, isLocals⟩ := same
          have instructions : Code.readInstructions b.pool raw.bytes =
              .ok [⟨0, 0x00, .ready .simple⟩, ⟨1, 0xb1, .ready .simple⟩] := by
            cases done : Code.readInstructions b.pool raw.bytes with
            | error e =>
                rw [done] at isRead
                cases isRead
            | ok is =>
                rw [done] at isRead
                cases isRead
                rfl
          obtain ⟨body, decoded, _, plan⟩ := Code.decode_spec _ raw.ranges raw.locals raw.bytes b.pool
            instructions (by simp [Code.RawOperand.Bare, Operand.label?, Operand.targets])
            (by rw [isBytes]; decide)
            (by rw [isBytes, isRanges, isLocals]; decide)
          refine ⟨bytes, b, raw, body, rfl, parsed, decoded, ?_, by decide⟩
          rw [plan, isRanges, isLocals]
          decide

end ClassFile

end JvmEdit
