import JvmEdit.Proofs.ClassFile.Lines
set_option autoImplicit false

namespace JvmEdit

namespace Assembler

theorem length_key_bytes (c : Context) (layout : Layout) (offset : Nat) (label : LabelId)
    (bytes : List UInt8) (written : i32 <$> c.distance layout offset label = .ok bytes) :
    bytes.length = 4 := by
  obtain ⟨distance, _, rfl⟩ := except_map _ _ _ written
  rfl

theorem length_flatten (entries : List (List UInt8)) (width : Nat)
    (each : ∀ entry ∈ entries, entry.length = width) :
    entries.flatten.length = width * entries.length := by
  induction entries with
  | nil => simp
  | cons entry entries ih =>
      have later := ih fun e member => each e (List.mem_cons_of_mem _ member)
      rw [List.flatten_cons, List.length_append, later, each entry (List.mem_cons_self ..),
        List.length_cons, Nat.mul_succ, Nat.add_comm]

theorem length_map_m {α : Type} (items : List α) (f : α → Except EncodeError (List UInt8))
    (entries : List (List UInt8)) (width : Nat) (written : items.mapM f = .ok entries)
    (each : ∀ item bytes, f item = .ok bytes → bytes.length = width) :
    entries.flatten.length = width * items.length := by
  have ran := except_map_m f items entries written
  rw [length_flatten entries width, ran.length_eq]
  clear written
  induction ran with
  | nil => intro entry member; cases member
  | cons first _ ih =>
      intro entry member
      rcases List.mem_cons.mp member with rfl | later
      · exact each _ _ first
      · exact ih entry later

theorem length_switch_bytes (c : Context) (layout : Layout) (offset : Nat) (op : Opcode)
    (otherwise : LabelId) (cases : List (Int32 × LabelId)) (bytes : List UInt8)
    (written : c.switchBytes layout offset op otherwise cases = .ok bytes) :
    bytes.length = 1 + Code.padding offset +
      if op = Opcode.tableSwitch then 12 + 4 * keySpan cases else 8 + 8 * cases.length := by
  obtain ⟨default, isDefault, written⟩ := except_bind _ _ _ written
  have four := length_key_bytes c layout offset otherwise default isDefault
  by_cases table : op = Opcode.tableSwitch
  · rw [if_pos table] at written ⊢
    obtain ⟨entries, isEntries, written⟩ := except_bind _ _ _ written
    have all := length_map_m _ _ entries 4 isEntries fun i bytes => length_key_bytes c layout offset _ bytes
    cases written
    simp only [List.length_append, List.length_cons, List.length_replicate, four, all,
      List.length_range, i32, Bytes.length_u32]
    omega
  · rw [if_neg table] at written ⊢
    obtain ⟨entries, isEntries, written⟩ := except_bind _ _ _ written
    have all := length_map_m _ _ entries 8 isEntries (by
      rintro ⟨key, label⟩ bytes done
      obtain ⟨distance, isDistance, isBytes⟩ := except_bind _ _ _ done
      cases isBytes
      have rest := length_key_bytes c layout offset label distance isDistance
      simp only [List.length_append, rest, i32, Bytes.length_u32])
    cases written
    simp only [List.length_append, List.length_cons, List.length_replicate, four, all,
      List.length_mergeSort, i32, Bytes.length_u32]
    omega

theorem length_jump_bytes (c : Context) (layout : Layout) (offset : Nat) (isFar : Bool) (op : Opcode)
    (label : LabelId) (bytes : List UInt8)
    (written : c.jumpBytes layout offset isFar op label = .ok bytes) :
    bytes.length = if isWideBranch op then 5 else if !isFar then 3 else if hasWideForm op then 5
      else 8 := by
  obtain ⟨distance, _, written⟩ := except_bind _ _ _ written
  by_cases wide : isWideBranch op = true
  · rw [if_pos wide] at written ⊢
    cases written
    rfl
  · rw [if_neg wide] at written ⊢
    cases isFar with
    | false =>
        cases written
        rfl
    | true =>
        rw [Bool.not_true, if_neg Bool.false_ne_true] at written ⊢
        by_cases isGoto : op = Opcode.goto
        · rw [if_pos isGoto] at written
          cases written
          simp [hasWideForm, isGoto, i32]
        · rw [if_neg isGoto] at written
          by_cases isJsr : op = Opcode.jsr
          · rw [if_pos isJsr] at written
            cases written
            simp [hasWideForm, isJsr, i32]
          · rw [if_neg isJsr] at written
            obtain ⟨hop, _, written⟩ := except_bind _ _ _ written
            cases written
            simp [hasWideForm, isGoto, isJsr, i16, i32]

-- What a table over all keys there are takes beyond the room that is set aside for it.
def Line.uncounted (line : Line) : Nat :=
  match line.operand with
  | .switch _ cases =>
      if line.opcode = Opcode.tableSwitch then 4 * (UInt32.size * (keySpan cases / UInt32.size)) else 0
  | _ => 0

theorem Line.uncounted_of_shaped (line : Line) (shaped : Code.Shaped line.opcode line.operand) :
    line.uncounted = 0 := by
  unfold uncounted
  split
  · rename_i otherwise cases isSwitch
    rw [isSwitch] at shaped
    rcases shaped with isLookup | ⟨_, _, short⟩
    · rw [isLookup, if_neg (by decide)]
    · have small := Nat.div_eq_of_lt (Nat.lt_trans short (by decide : 2 ^ 30 < UInt32.size))
      rw [small, Nat.mul_zero, Nat.mul_zero, ite_self]
  · rfl

theorem length_line_bytes [Libraries] (c : Context) (layout : Layout) (offset : Nat) (isFar : Bool)
    (line : Line)
    (bytes : List UInt8) (written : c.lineBytes layout offset isFar line = .ok bytes) :
    bytes.length = size line offset isFar + line.uncounted := by
  obtain ⟨op, operand, index⟩ := line
  simp only [Context.lineBytes] at written
  cases operand with
  | jump label => exact length_jump_bytes c layout offset isFar op label bytes written
  | switch otherwise cases =>
      have whole := length_switch_bytes c layout offset op otherwise cases bytes written
      have span := Nat.mod_add_div (keySpan cases) UInt32.size
      unfold size Line.uncounted
      dsimp only
      split <;> split at whole <;> first | omega | contradiction
  | int value =>
      cases written
      unfold size
      dsimp only
      split <;> rfl
  | var slot =>
      cases written
      unfold size
      dsimp only
      split <;> rfl
  | increment slot delta =>
      cases written
      unfold size
      dsimp only
      split <;> rfl
  | constant value =>
      cases written
      unfold size
      dsimp only
      by_cases double : value.slots = 2
      · simp [double, Line.uncounted]
      · by_cases small : fitsByte index = true
        · simp [double, small, Line.uncounted]
        · simp [double, Bool.eq_false_iff.mpr small, Line.uncounted]
  | call call =>
      cases written
      unfold size
      dsimp only
      split <;> rfl
  | _ =>
      cases written
      rfl

-- The offsets of lines from `offset` on, and behind the last of them where they end.
def offsetList (offset : Nat) : List Line → List Bool → List Nat
  | line :: lines, isFar :: far => offset :: offsetList (offset + size line offset isFar) lines far
  | _, _ => [offset]

theorem offsets_onto_to_list (offsets : Array Nat) (offset : Nat) (lines : List Line)
    (far : List Bool) : (offsetsOnto offsets offset lines far).toList =
      offsets.toList ++ offsetList offset lines far := by
  induction lines generalizing offsets offset far with
  | nil => simp [offsetsOnto, offsetList]
  | cons line lines ih =>
      cases far with
      | nil => simp [offsetsOnto, offsetList]
      | cons isFar far =>
          rw [offsetsOnto, ih, offsetList, Array.toList_push, List.append_assoc]
          rfl

theorem length_offset_list (offset : Nat) (lines : List Line) (far : List Bool)
    (same : far.length = lines.length) : (offsetList offset lines far).length = lines.length + 1 := by
  induction lines generalizing offset far with
  | nil => rfl
  | cons line lines ih =>
      cases far with
      | nil => cases same
      | cons isFar far =>
          rw [offsetList, List.length_cons, ih _ far (Nat.succ.inj same), List.length_cons]

theorem offset_list_head (offset : Nat) (lines : List Line) (far : List Bool) :
    (offsetList offset lines far).getD 0 0 = offset := by
  cases lines with
  | nil => rfl
  | cons line lines =>
      cases far with
      | nil => rfl
      | cons isFar far => rfl

theorem offset_list_step (offset : Nat) (lines : List Line) (far : List Bool) (position : Nat)
    (line : Line) (isFar : Bool) (here : lines[position]? = some line)
    (mark : far[position]? = some isFar) :
    (offsetList offset lines far).getD (position + 1) 0 =
      (offsetList offset lines far).getD position 0 +
        size line ((offsetList offset lines far).getD position 0) isFar := by
  induction lines generalizing offset far position with
  | nil => cases here
  | cons first lines ih =>
      cases far with
      | nil => cases mark
      | cons isFarFirst far =>
          cases position with
          | zero =>
              cases here
              cases mark
              rw [offsetList, List.getD_cons_succ, offset_list_head, List.getD_cons_zero]
          | succ position =>
              rw [offsetList, List.getD_cons_succ, List.getD_cons_succ]
              exact ih _ far position here mark

def Judged (c : Context) (layout : Layout) (offset : Nat) (line : Line) (isFar widened : Bool) :
    Prop :=
  match line.operand with
  | .jump label =>
      if isFar || isWideBranch line.opcode then widened = isFar
      else widened = !fitsSignedShort ((c.place layout label : Int) - offset)
  | _ => widened = isFar

-- Each line from a position on is judged.
def Judges (c : Context) (layout : Layout) (position : Nat) (lines : List Line)
    (far widened : List Bool) : Prop :=
  widened.length = lines.length ∧
    ∀ (k : Nat) line isFar wide, lines[k]? = some line → far[k]? = some isFar →
      widened[k]? = some wide → Judged c layout (layout.offset (position + k)) line isFar wide

theorem judges_cons (c : Context) (layout : Layout) (position : Nat) (line : Line)
    (lines : List Line) (isFar wide : Bool) (far widened : List Bool)
    (first : Judged c layout (layout.offset position) line isFar wide)
    (later : Judges c layout (position + 1) lines far widened) :
    Judges c layout position (line :: lines) (isFar :: far) (wide :: widened) := by
  refine ⟨by rw [List.length_cons, later.1, List.length_cons], ?_⟩
  intro k other isFar' wide' here mark became
  cases k with
  | zero =>
      cases here
      cases mark
      cases became
      exact first
  | succ k =>
      have judged := later.2 k other isFar' wide' here mark became
      rwa [Nat.add_assoc, Nat.add_comm 1] at judged

theorem widen_onto_spec (c : Context) (layout : Layout) (reversed : List Bool) (position : Nat)
    (lines : List Line) (far widened : List Bool) (same : far.length = lines.length)
    (done : c.widenOnto layout reversed position lines far = .ok widened) :
    ∃ more, widened = reversed.reverse ++ more ∧ Judges c layout position lines far more := by
  induction lines generalizing reversed position far with
  | nil =>
      cases far with
      | nil =>
          cases done
          exact ⟨[], (List.append_nil _).symm, rfl, fun k line _ _ here => by cases here⟩
      | cons => cases same
  | cons line lines ih =>
      cases far with
      | nil => cases same
      | cons isFar far =>
          have rest : ∀ wide, Judged c layout (layout.offset position) line isFar wide →
              c.widenOnto layout (wide :: reversed) (position + 1) lines far = .ok widened →
              ∃ more, widened = reversed.reverse ++ more ∧
                Judges c layout position (line :: lines) (isFar :: far) more := by
            intro wide judged later
            obtain ⟨more, isList, judges⟩ := ih (wide :: reversed) (position + 1) far
              (Nat.succ.inj same) later
            refine ⟨wide :: more, ?_, judges_cons c layout position line lines isFar wide far more judged
              judges⟩
            rw [isList, List.reverse_cons, List.append_assoc]
            rfl
          simp only [Context.widenOnto] at done
          split at done
          · rename_i label isJump
            by_cases known : (isFar || isWideBranch line.opcode) = true
            · rw [if_pos known] at done
              refine rest isFar ?_ done
              unfold Judged
              rw [isJump]
              dsimp only
              rw [if_pos known]
            · rw [if_neg known] at done
              obtain ⟨distance, found, done⟩ := except_bind _ _ _ done
              refine rest _ ?_ done
              simp only [Judged]
              rw [isJump, (distance_place c layout _ label distance found).1]
              dsimp only
              rw [if_neg known]
          · rename_i notJump
            refine rest isFar ?_ done
            unfold Judged
            split
            · rename_i label isJump
              exact absurd isJump (notJump label)
            · rfl

-- What a layout guarantees once the distances have settled.
structure LaidOut (c : Context) (lines : List Line) (layout : Layout) : Prop where
  marks : layout.far.length = lines.length
  start : layout.offset 0 = 0
  step : ∀ (position : Nat) (line : Line) isFar, lines[position]? = some line →
    layout.far[position]? = some isFar →
    layout.offset (position + 1) =
      layout.offset position + size line (layout.offset position) isFar
  stop : layout.offset lines.length = layout.length
  beyond : ∀ position, lines.length < position → layout.offset position = 0
  bound : layout.length ≤ 65535
  short : ∀ (position : Nat) (line : Line) label, lines[position]? = some line →
    layout.far[position]? = some false → line.operand = .jump label →
    isWideBranch line.opcode = false →
    fitsSignedShort ((c.place layout label : Int) - layout.offset position) = true
  far : ∀ (position : Nat) (line : Line), lines[position]? = some line →
    layout.far[position]? = some true →
    ∃ label, line.operand = .jump label ∧ isWideBranch line.opcode = false

theorem layout_offset (lines : List Line) (far : List Bool) (position : Nat) :
    Layout.offset ⟨offsetsOnto #[] 0 lines far, far⟩ position =
      (offsetList 0 lines far).getD position 0 := by
  have list := offsets_onto_to_list #[] 0 lines far
  rw [Layout.offset, Array.getD_eq_getD_getElem?, List.getD_eq_getElem?_getD, ← Array.getElem?_toList,
    list]
  rfl

theorem layout_length (lines : List Line) (far : List Bool) (same : far.length = lines.length) :
    Layout.length ⟨offsetsOnto #[] 0 lines far, far⟩ =
      (offsetList 0 lines far).getD lines.length 0 := by
  have list := offsets_onto_to_list #[] 0 lines far
  rw [Layout.length, Array.back?_eq_getElem?, ← Array.getElem?_toList, ← Array.length_toList, list,
    List.getD_eq_getElem?_getD]
  have length := length_offset_list 0 lines far same
  simp only [List.nil_append, length]
  rfl

theorem branch_of_judged (c : Context) (layout : Layout) (offset : Nat) (line : Line) (isFar : Bool)
    (judged : Judged c layout offset line isFar true) :
    isFar = true ∨ ∃ label, line.operand = .jump label ∧ isWideBranch line.opcode = false := by
  simp only [Judged] at judged
  split at judged
  · rename_i label isJump
    split at judged
    · exact Or.inl judged.symm
    · rename_i unknown
      simp only [Bool.or_eq_true, not_or, Bool.not_eq_true] at unknown
      exact Or.inr ⟨label, isJump, unknown.2⟩
  · exact Or.inl judged.symm

theorem laid_out_settled (c : Context) (lines : List Line) (far : List Bool)
    (same : far.length = lines.length)
    (branches : ∀ (position : Nat) (line : Line), lines[position]? = some line →
      far[position]? = some true → ∃ label, line.operand = .jump label ∧
        isWideBranch line.opcode = false)
    (small : Layout.length ⟨offsetsOnto #[] 0 lines far, far⟩ ≤ 65535)
    (judged : ∀ (k : Nat) (line : Line) isFar wide, lines[k]? = some line → far[k]? = some isFar →
      far[k]? = some wide → Judged c ⟨offsetsOnto #[] 0 lines far, far⟩
        (Layout.offset ⟨offsetsOnto #[] 0 lines far, far⟩ k) line isFar wide) :
    LaidOut c lines ⟨offsetsOnto #[] 0 lines far, far⟩ := by
  refine ⟨same, ?_, ?_, ?_, ?_, small, ?_, branches⟩
  · rw [layout_offset, offset_list_head]
  · intro position line isFar here mark
    rw [layout_offset, layout_offset, offset_list_step 0 lines far position line isFar here mark]
  · rw [layout_offset, layout_length lines far same]
  · intro position past
    have length := length_offset_list 0 lines far same
    rw [layout_offset, List.getD_eq_getElem?_getD, List.getElem?_eq_none (by omega)]
    rfl
  · intro position line label here mark isJump narrow
    have verdict := judged position line false false here mark mark
    simp only [Judged] at verdict
    rw [isJump] at verdict
    dsimp only at verdict
    rw [narrow, Bool.or_self, if_neg Bool.false_ne_true] at verdict
    simpa using verdict

theorem laid_out_layout_from (c : Context) (lines : List Line) (rounds : Nat) (far : List Bool)
    (layout : Layout) (same : far.length = lines.length)
    (branches : ∀ (position : Nat) (line : Line), lines[position]? = some line →
      far[position]? = some true → ∃ label, line.operand = .jump label ∧
        isWideBranch line.opcode = false)
    (done : c.layoutFrom lines rounds far = .ok layout) : LaidOut c lines layout := by
  induction rounds generalizing far with
  | zero => cases done
  | succ rounds ih =>
      unfold Context.layoutFrom at done
      dsimp only at done
      split at done
      · cases done
      · split at done
        · cases done
        · rename_i small
          obtain ⟨widened, isWidened, done⟩ := except_bind _ _ _ done
          obtain ⟨more, isList, length, judged⟩ := widen_onto_spec c _ [] 0 lines far widened same
            isWidened
          rw [List.reverse_nil, List.nil_append] at isList
          subst isList
          simp only [Nat.zero_add] at judged
          split at done
          · rename_i settled
            cases done
            rw [settled] at judged
            exact laid_out_settled c lines far same branches (by omega) judged
          · refine ih _ length ?_ done
            intro position line here became
            obtain ⟨isFar, mark⟩ : ∃ isFar, far[position]? = some isFar := by
              have inside := (List.getElem?_eq_some_iff.mp here).1
              exact ⟨_, List.getElem?_eq_getElem (by omega)⟩
            rcases branch_of_judged c _ _ line isFar (judged position line isFar true here mark became)
              with already | branch
            · exact branches position line here (already ▸ mark)
            · exact branch

theorem laid_out_layout (c : Context) (lines : List Line) (layout : Layout)
    (done : c.layout lines = .ok layout) : LaidOut c lines layout := by
  refine laid_out_layout_from c lines _ _ layout List.length_replicate ?_ done
  intro position line _ mark
  have none := List.eq_of_mem_replicate (List.mem_of_getElem? mark)
  cases none

-- What the lines from a position on are read as.
def listing (c : Context) (layout : Layout) (position : Nat) :
    List Line → List Bool → List Code.RawInstruction
  | line :: lines, isFar :: far =>
      line.listed c layout (layout.offset position) isFar ++ listing c layout (position + 1) lines far
  | _, _ => []

theorem drop_cons {α : Type} (items rest : List α) (item : α) (position : Nat)
    (here : items.drop position = item :: rest) :
    items[position]? = some item ∧ items.drop (position + 1) = rest := by
  refine ⟨?_, ?_⟩
  · rw [← List.head?_drop, here]
    rfl
  · rw [← List.tail_drop, here]
    rfl

-- The lines from a position on, with their marks beside them.
inductive Remaining (all : List Line) (marks : List Bool) : Nat → List Line → List Bool → Prop
  | stop : Remaining all marks all.length [] []
  | line (position : Nat) (line : Line) (isFar : Bool) (lines : List Line) (far : List Bool)
      (here : all[position]? = some line) (mark : marks[position]? = some isFar)
      (rest : Remaining all marks (position + 1) lines far) :
      Remaining all marks position (line :: lines) (isFar :: far)

namespace LaidOut

variable {c : Context} {lines : List Line} {layout : Layout} (laid : LaidOut c lines layout)

include laid

theorem mark (position : Nat) (inside : position < lines.length) :
    ∃ isFar, layout.far[position]? = some isFar :=
  ⟨_, List.getElem?_eq_getElem (by rw [laid.marks]; exact inside)⟩

theorem remaining (position : Nat) (rest : List Line) (far : List Bool)
    (isRest : lines.drop position = rest) (isFar : layout.far.drop position = far)
    (inside : position ≤ lines.length) : Remaining lines layout.far position rest far := by
  induction rest generalizing position far with
  | nil =>
      have atEnd : position = lines.length := Nat.le_antisymm inside (List.drop_eq_nil_iff.mp isRest)
      rw [atEnd, ← laid.marks, List.drop_length] at isFar
      rw [atEnd, ← isFar]
      exact .stop
  | cons line rest ih =>
      obtain ⟨here, next⟩ := drop_cons lines rest line position isRest
      have before := (List.getElem?_eq_some_iff.mp here).1
      cases far with
      | nil =>
          have short := List.drop_eq_nil_iff.mp isFar
          rw [laid.marks] at short
          omega
      | cons first far =>
          obtain ⟨mark, nextFar⟩ := drop_cons layout.far far first position isFar
          exact .line position line first rest far here mark (ih (position + 1) far next nextFar before)

theorem offset_le (position : Nat) (inside : position ≤ lines.length) :
    layout.offset position ≤ layout.length := by
  obtain ⟨rest, isRest⟩ := Nat.exists_eq_add_of_le inside
  induction rest generalizing position with
  | zero =>
      have atEnd : layout.offset position = layout.length := by
        rw [← laid.stop, isRest, Nat.add_zero]
      exact Nat.le_of_eq atEnd
  | succ rest ih =>
      obtain ⟨isFar, marked⟩ := laid.mark position (by omega)
      have here : lines[position]? = some lines[position] := List.getElem?_eq_getElem (by omega)
      have step := laid.step position _ isFar here marked
      have later := ih (position + 1) (by omega) (by omega)
      omega

theorem offset_small (position : Nat) : layout.offset position ≤ 65535 := by
  by_cases inside : position ≤ lines.length
  · exact Nat.le_trans (laid.offset_le position inside) laid.bound
  · rw [laid.beyond position (by omega)]
    exact Nat.zero_le _

theorem place_small (label : LabelId) : c.place layout label ≤ 65535 := by
  simp only [Context.place]
  cases c.labels.lookup label with
  | none => exact Nat.zero_le _
  | some position => exact laid.offset_small position

theorem settled (position : Nat) (line : Line) (isFar : Bool) (here : lines[position]? = some line)
    (marked : layout.far[position]? = some isFar) :
    Settled c layout (layout.offset position) isFar line := by
  refine ⟨laid.offset_small position, laid.place_small, ?_, ?_, ?_⟩
  · have step := laid.step position line isFar here marked
    have next := laid.offset_small (position + 1)
    omega
  · rintro label isJump rfl narrow
    exact laid.short position line label here marked isJump narrow
  · rintro rfl
    exact laid.far position line here marked

end LaidOut

theorem emit_onto_spec [Libraries] (pool : Pool) (c : Context) (all : List Line) (layout : Layout)
    (laid : LaidOut c all layout) (shaped : ∀ line ∈ all, Code.Shaped line.opcode line.operand)
    (resolved : ∀ line ∈ all, line.Resolved pool) (reversed : List (List UInt8)) (position : Nat)
    (lines : List Line) (far : List Bool) (bytes : List UInt8) (isLines : all.drop position = lines)
    (isFar : layout.far.drop position = far) (inside : position ≤ all.length)
    (done : c.emitOnto layout reversed position lines far = .ok bytes) :
    ∃ more, bytes = reversed.reverse.flatten ++ more ∧
      layout.offset position + more.length = layout.length ∧
      ∀ rest, Code.Scans pool ⟨more ++ rest, layout.offset position⟩
        (listing c layout position lines far) ⟨rest, layout.length⟩ := by
  have remaining := laid.remaining position lines far isLines isFar inside
  clear isLines isFar inside
  induction remaining generalizing reversed with
  | stop =>
      cases done
      refine ⟨[], (List.append_nil _).symm, laid.stop, ?_⟩
      intro rest
      rw [laid.stop]
      exact .nil _
  | line position line isFar lines far here mark _ ih =>
      obtain ⟨chunk, written, done⟩ := except_bind _ _ _ done
      obtain ⟨more, isBytes, length, scans⟩ := ih (chunk :: reversed) done
      have room := length_line_bytes c layout _ isFar line chunk written
      rw [line.uncounted_of_shaped (shaped line (List.mem_of_getElem? here)), Nat.add_zero] at room
      have step := laid.step position line isFar here mark
      have settled := laid.settled position line isFar here mark
      have member := List.mem_of_getElem? here
      refine ⟨chunk ++ more, ?_, ?_, ?_⟩
      · rw [isBytes, List.reverse_cons, List.flatten_append, List.append_assoc]
        simp
      · rw [List.length_append]
        omega
      · intro rest
        have one := scans_line pool c layout (layout.offset position) isFar (more ++ rest) line
          chunk settled (shaped line member) (resolved line member) written
        rw [room, ← step] at one
        rw [List.append_assoc]
        exact one.append (scans rest)

theorem emit_spec [Libraries] (pool : Pool) (c : Context) (lines : List Line) (layout : Layout)
    (bytes : List UInt8) (laid : LaidOut c lines layout)
    (shaped : ∀ line ∈ lines, Code.Shaped line.opcode line.operand)
    (resolved : ∀ line ∈ lines, line.Resolved pool) (done : c.emit layout lines = .ok bytes) :
    bytes.length = layout.length ∧
      Code.readInstructions pool bytes = .ok (listing c layout 0 lines layout.far) := by
  obtain ⟨more, isBytes, length, scans⟩ := emit_onto_spec pool c lines layout laid shaped resolved []
    0 lines layout.far bytes rfl rfl (Nat.zero_le _) done
  have whole := scans []
  rw [List.reverse_nil, List.flatten_nil, List.nil_append] at isBytes
  rw [laid.start, List.append_nil, ← isBytes] at whole
  rw [laid.start, Nat.zero_add, ← isBytes] at length
  exact ⟨length, Code.read_instructions_scans pool bytes _ _ whole⟩

end Assembler

end JvmEdit
