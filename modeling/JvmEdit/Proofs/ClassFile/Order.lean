import JvmEdit.Proofs.ClassFile.Assembly
import JvmEdit.Proofs.ClassFile.Labels
set_option autoImplicit false

namespace JvmEdit

namespace Assembler

def Line.width (line : Line) (isFar : Bool) : Nat :=
  match line.operand with
  | .label _ => 0
  | .jump _ => if isFar && !hasWideForm line.opcode then 2 else 1
  | _ => 1

-- What a line is read as, with each label by its place and with `before` instructions in front.
def Line.rebuilt (place : LabelId → LabelId) (before : Nat) (isFar : Bool) (line : Line) :
    List (Opcode × Operand) :=
  match line.operand with
  | .label _ => []
  | .constant value => [(loadOpcode line.index value, .constant value)]
  | .jump label =>
      if !isFar then [(line.opcode, .jump (place label))]
      else if line.opcode = Opcode.goto then [(Opcode.gotoW, .jump (place label))]
      else if line.opcode = Opcode.jsr then [(Opcode.jsrW, .jump (place label))]
      else [(opposite line.opcode, .jump ⟨before + 2⟩), (Opcode.gotoW, .jump (place label))]
  | .switch otherwise cases =>
      [(line.opcode, .switch (place otherwise)
        ((writtenCases line.opcode otherwise cases).map fun k => (k.1, place k.2)))]
  | operand => [(line.opcode, operand)]

def rebuilt (place : LabelId → LabelId) (before : Nat) :
    List Line → List Bool → List (Opcode × Operand)
  | line :: lines, isFar :: far =>
      line.rebuilt place before isFar ++ rebuilt place (before + line.width isFar) lines far
  | _, _ => []

def width : List Line → List Bool → Nat
  | line :: lines, isFar :: far => line.width isFar + width lines far
  | _, _ => 0

-- How many instructions stand before a position.
def ordinal (lines : List Line) (far : List Bool) (position : Nat) : Nat :=
  width (lines.take position) (far.take position)

theorem ordinal_zero (lines : List Line) (far : List Bool) : ordinal lines far 0 = 0 := rfl

theorem ordinal_succ (lines : List Line) (far : List Bool) (position : Nat) (line : Line)
    (isFar : Bool) (here : lines[position]? = some line) (mark : far[position]? = some isFar) :
    ordinal lines far (position + 1) = ordinal lines far position + line.width isFar := by
  induction lines generalizing far position with
  | nil => cases here
  | cons first lines ih =>
      cases far with
      | nil => cases mark
      | cons isFarFirst far =>
          cases position with
          | zero =>
              cases here
              cases mark
              simp [ordinal, width]
          | succ position =>
              have later := ih far position here mark
              simp only [ordinal, List.take_succ_cons, width] at later ⊢
              omega

section Listed

variable (c : Context) (layout : Layout) (offset : Nat) (isFar : Bool) (line : Line)

theorem listed_cases :
    (line.listed c layout offset isFar = [] ∧ size line offset isFar = 0 ∧ line.width isFar = 0) ∨
    (∃ op operand, line.listed c layout offset isFar = [⟨offset, op, operand⟩] ∧
      0 < size line offset isFar ∧ line.width isFar = 1) ∨
    ∃ op operand op' operand', line.listed c layout offset isFar =
      [⟨offset, op, operand⟩, ⟨offset + 3, op', operand'⟩] ∧ 5 ≤ size line offset isFar ∧
        line.width isFar = 2 := by
  obtain ⟨op, operand, index⟩ := line
  cases operand with
  | label label => exact Or.inl ⟨rfl, rfl, rfl⟩
  | jump label =>
      cases isFar with
      | false =>
          refine Or.inr (Or.inl ⟨_, _, rfl, ?_, rfl⟩)
          unfold size
          dsimp only
          split
          · exact Nat.succ_pos _
          · exact Nat.succ_pos _
      | true =>
          by_cases isGoto : op = Opcode.goto
          · subst isGoto
            exact Or.inr (Or.inl ⟨_, _, rfl, Nat.succ_pos _, rfl⟩)
          · by_cases isJsr : op = Opcode.jsr
            · subst isJsr
              exact Or.inr (Or.inl ⟨_, _, rfl, Nat.succ_pos _, rfl⟩)
            · refine Or.inr (Or.inr ⟨opposite op, .jump (offset + 8), Opcode.gotoW,
                .jump (c.place layout label), ?_, ?_, ?_⟩)
              · unfold Line.listed
                dsimp only
                rw [Bool.not_true, if_neg Bool.false_ne_true, if_neg isGoto, if_neg isJsr]
              · unfold size
                dsimp only
                split
                · exact Nat.le_refl _
                · simp [hasWideForm, isGoto, isJsr]
              · simp [Line.width, hasWideForm, isGoto, isJsr]
  | int value =>
      exact Or.inr (Or.inl ⟨_, _, rfl, by unfold size; dsimp only; split <;> omega, rfl⟩)
  | var slot =>
      exact Or.inr (Or.inl ⟨_, _, rfl, by unfold size; dsimp only; split <;> omega, rfl⟩)
  | increment slot delta =>
      exact Or.inr (Or.inl ⟨_, _, rfl, by unfold size; dsimp only; split <;> omega, rfl⟩)
  | constant value =>
      exact Or.inr (Or.inl ⟨_, _, rfl, by unfold size; dsimp only; split <;> omega, rfl⟩)
  | call call =>
      exact Or.inr (Or.inl ⟨_, _, rfl, by unfold size; dsimp only; split <;> omega, rfl⟩)
  | switch otherwise cases =>
      exact Or.inr (Or.inl ⟨_, _, rfl, by unfold size; dsimp only; omega, rfl⟩)
  | _ => exact Or.inr (Or.inl ⟨_, _, rfl, by unfold size; dsimp only; omega, rfl⟩)

theorem length_listed : (line.listed c layout offset isFar).length = line.width isFar := by
  rcases listed_cases c layout offset isFar line with ⟨list, _, width⟩ | ⟨_, _, list, _, width⟩ |
    ⟨_, _, _, _, list, _, width⟩
  · rw [list, width]
    rfl
  · rw [list, width]
    rfl
  · rw [list, width]
    rfl

theorem bare_listed : ∀ i ∈ line.listed c layout offset isFar, i.operand.Bare := by
  obtain ⟨op, operand, index⟩ := line
  simp only [Line.listed]
  intro i member
  cases operand with
  | label label => cases member
  | jump label =>
      dsimp only at member
      split at member
      · cases List.mem_singleton.mp member
        trivial
      · split at member
        · cases List.mem_singleton.mp member
          trivial
        · split at member
          · cases List.mem_singleton.mp member
            trivial
          · rcases List.mem_cons.mp member with rfl | member
            · trivial
            · cases List.mem_singleton.mp member
              trivial
  | switch otherwise cases =>
      cases List.mem_singleton.mp member
      trivial
  | _ =>
      cases List.mem_singleton.mp member
      exact ⟨rfl, rfl⟩

end Listed

theorem length_listing (c : Context) (layout : Layout) (position : Nat) (lines : List Line)
    (far : List Bool) : (listing c layout position lines far).length = width lines far := by
  induction lines generalizing position far with
  | nil => rfl
  | cons line lines ih =>
      cases far with
      | nil => rfl
      | cons isFar far => rw [listing, List.length_append, length_listed, ih, width]

theorem bare_listing (c : Context) (layout : Layout) (position : Nat) (lines : List Line)
    (far : List Bool) : ∀ i ∈ listing c layout position lines far, i.operand.Bare := by
  induction lines generalizing position far with
  | nil =>
      intro i member
      cases member
  | cons line lines ih =>
      cases far with
      | nil =>
          intro i member
          cases member
      | cons isFar far =>
          intro i member
          rcases List.mem_append.mp member with here | later
          · exact bare_listed c layout _ isFar line i here
          · exact ih (position + 1) far i later

theorem listing_split (c : Context) (layout : Layout) (position count : Nat) (lines : List Line)
    (far : List Bool) : listing c layout position lines far =
      listing c layout position (lines.take count) (far.take count) ++
        listing c layout (position + count) (lines.drop count) (far.drop count) := by
  induction count generalizing position lines far with
  | zero => rfl
  | succ count ih =>
      cases lines with
      | nil => rfl
      | cons line lines =>
          cases far with
          | nil =>
              rw [List.drop_nil]
              cases (line :: lines).drop (count + 1) <;> rfl
          | cons isFar far =>
              simp only [List.take_succ_cons, List.drop_succ_cons, listing, List.append_assoc]
              rw [ih (position + 1) lines far, Nat.add_assoc, Nat.add_comm 1]

theorem starts_split (c : Context) (layout : Layout) (position : Nat) (lines : List Line)
    (far : List Bool) (size : Nat) : Code.starts (listing c layout 0 lines far) size =
      (listing c layout 0 (lines.take position) (far.take position)).map (·.offset) ++
        Code.starts (listing c layout position (lines.drop position) (far.drop position)) size := by
  rw [listing_split c layout 0 position lines far, Code.starts, List.map_append, List.append_assoc,
    Nat.zero_add]
  rfl

namespace LaidOut

variable {c : Context} {all : List Line} {layout : Layout} (laid : LaidOut c all layout)

include laid

theorem starts_listing (position : Nat) (lines : List Line) (far : List Bool)
    (isLines : all.drop position = lines) (isFar : layout.far.drop position = far)
    (inside : position ≤ all.length) :
    (∀ o ∈ Code.starts (listing c layout position lines far) layout.length,
      layout.offset position ≤ o) ∧
    (Code.starts (listing c layout position lines far) layout.length).Pairwise (· < ·) ∧
    layout.offset position ∈ Code.starts (listing c layout position lines far) layout.length := by
  have remaining := laid.remaining position lines far isLines isFar inside
  clear isLines isFar inside
  induction remaining with
  | stop =>
      refine ⟨?_, List.pairwise_singleton _ _, ?_⟩
      · intro o member
        exact Nat.le_of_eq (laid.stop.trans (List.mem_singleton.mp member).symm)
      · rw [laid.stop]
        exact List.mem_singleton_self _
  | line position line isFar lines far here mark _ ih =>
      obtain ⟨low, sorted, start⟩ := ih
      have step := laid.step position line isFar here mark
      have split : Code.starts (listing c layout position (line :: lines) (isFar :: far))
          layout.length =
            (line.listed c layout (layout.offset position) isFar).map (·.offset) ++
              Code.starts (listing c layout (position + 1) lines far) layout.length := by
        rw [listing, Code.starts, List.map_append, List.append_assoc]
        rfl
      rw [split]
      rcases listed_cases c layout (layout.offset position) isFar line with
        ⟨list, size, _⟩ | ⟨_, _, list, size, _⟩ | ⟨_, _, _, _, list, size, _⟩
      · have same : layout.offset (position + 1) = layout.offset position := by omega
        rw [list, List.map_nil, List.nil_append, ← same]
        exact ⟨low, sorted, start⟩
      · simp only [list, List.map_cons, List.map_nil, List.cons_append, List.nil_append]
        refine ⟨?_, List.pairwise_cons.mpr ⟨?_, sorted⟩, List.mem_cons_self ..⟩
        · intro o member
          rcases List.mem_cons.mp member with rfl | later
          · exact Nat.le_refl _
          · exact Nat.le_trans (by omega) (low o later)
        · intro o later
          exact Nat.lt_of_lt_of_le (by omega) (low o later)
      · simp only [list, List.map_cons, List.map_nil, List.cons_append, List.nil_append]
        refine ⟨?_, List.pairwise_cons.mpr ⟨?_, List.pairwise_cons.mpr ⟨?_, sorted⟩⟩,
          List.mem_cons_self ..⟩
        · intro o member
          rcases List.mem_cons.mp member with rfl | member
          · exact Nat.le_refl _
          · rcases List.mem_cons.mp member with rfl | later
            · exact Nat.le_add_right _ _
            · exact Nat.le_trans (by omega) (low o later)
        · intro o member
          rcases List.mem_cons.mp member with rfl | later
          · exact Nat.lt_add_of_pos_right (by decide)
          · exact Nat.lt_of_lt_of_le (by omega) (low o later)
        · intro o later
          exact Nat.lt_of_lt_of_le (by omega) (low o later)

theorem starts_sorted :
    (Code.starts (listing c layout 0 all layout.far) layout.length).Pairwise (· < ·) :=
  (laid.starts_listing 0 all layout.far rfl rfl (Nat.zero_le _)).2.1

theorem offset_mem_starts (position : Nat) :
    layout.offset position ∈ Code.starts (listing c layout 0 all layout.far) layout.length := by
  by_cases inside : position ≤ all.length
  · rw [starts_split c layout position]
    exact List.mem_append_right _ (laid.starts_listing position _ _ rfl rfl inside).2.2
  · rw [laid.beyond position (by omega)]
    have first := (laid.starts_listing 0 all layout.far rfl rfl (Nat.zero_le _)).2.2
    rwa [laid.start] at first

theorem place_mem_starts (label : LabelId) :
    c.place layout label ∈ Code.starts (listing c layout 0 all layout.far) layout.length := by
  simp only [Context.place]
  cases c.labels.lookup label with
  | none =>
      have first := laid.offset_mem_starts 0
      rw [laid.start] at first
      exact first
  | some position => exact laid.offset_mem_starts position

theorem rank_offset (position : Nat) (inside : position ≤ all.length) :
    Code.rank (listing c layout 0 all layout.far) (layout.offset position) =
      ordinal all layout.far position := by
  have sorted := laid.starts_sorted
  rw [starts_split c layout position] at sorted
  have early := (List.pairwise_append.mp sorted).2.2
  obtain ⟨low, _, start⟩ := laid.starts_listing position _ _ rfl rfl inside
  have head : Code.rank (listing c layout 0 (all.take position) (layout.far.take position))
      (layout.offset position) = ordinal all layout.far position := by
    rw [ordinal, ← length_listing c layout 0, Code.rank, List.countP_eq_length]
    intro i member
    exact decide_eq_true (early _ (List.mem_map_of_mem member) _ start)
  have tail : Code.rank (listing c layout position (all.drop position) (layout.far.drop position))
      (layout.offset position) = 0 :=
    Code.rank_first _ _ fun i member =>
      low i.offset (List.mem_append_left _ (List.mem_map_of_mem member))
  rw [listing_split c layout 0 position all layout.far, Nat.zero_add, Code.rank, List.countP_append]
  exact congrArg₂ (· + ·) head tail

end LaidOut

-- A label by the number of instructions before its position.
def Context.spot (c : Context) (lines : List Line) (far : List Bool) (label : LabelId) : LabelId :=
  ⟨ordinal lines far ((c.labels.lookup label).getD 0)⟩

-- A label by the number of instructions that start before it once the lines are read back.
def ranked (c : Context) (layout : Layout) (lines : List Line) (label : LabelId) : LabelId :=
  ⟨Code.rank (listing c layout 0 lines layout.far) (c.place layout label)⟩

namespace LaidOut

variable {c : Context} {all : List Line} {layout : Layout} (laid : LaidOut c all layout)

include laid

theorem offset_hop (position : Nat) (line : Line) (label : LabelId) (here : all[position]? = some line)
    (mark : layout.far[position]? = some true) (isJump : line.operand = .jump label)
    (notGoto : line.opcode ≠ Opcode.goto) (notJsr : line.opcode ≠ Opcode.jsr) :
    layout.offset (position + 1) = layout.offset position + 8 ∧
      ordinal all layout.far (position + 1) = ordinal all layout.far position + 2 := by
  obtain ⟨_, _, narrow⟩ := laid.far position line here mark
  have noWideForm : hasWideForm line.opcode = false := by
    simp [hasWideForm, notGoto, notJsr]
  refine ⟨?_, ?_⟩
  · rw [laid.step position line true here mark]
    simp only [size]
    rw [isJump]
    dsimp only
    rw [narrow, noWideForm]
    rfl
  · rw [ordinal_succ all layout.far position line true here mark]
    simp only [Line.width]
    rw [isJump]
    dsimp only
    rw [noWideForm]
    rfl

theorem aimed_listed (position : Nat) (line : Line) (isFar : Bool)
    (here : all[position]? = some line) (mark : layout.far[position]? = some isFar) :
    (line.listed c layout (layout.offset position) isFar).map (fun i =>
      (i.opcode, i.operand.aimed fun o => ⟨Code.rank (listing c layout 0 all layout.far) o⟩)) =
        line.rebuilt (ranked c layout all) (ordinal all layout.far position) isFar := by
  cases found : line.operand with
  | jump label =>
      simp only [Line.listed, Line.rebuilt]
      rw [found]
      dsimp only
      cases isFar with
      | false => rfl
      | true =>
          rw [Bool.not_true, if_neg Bool.false_ne_true, if_neg Bool.false_ne_true]
          by_cases isGoto : line.opcode = Opcode.goto
          · rw [if_pos isGoto, if_pos isGoto]
            rfl
          · rw [if_neg isGoto, if_neg isGoto]
            by_cases isJsr : line.opcode = Opcode.jsr
            · rw [if_pos isJsr, if_pos isJsr]
              rfl
            · rw [if_neg isJsr, if_neg isJsr]
              obtain ⟨offset, count⟩ := laid.offset_hop position line label here mark found isGoto isJsr
              have hop := laid.rank_offset (position + 1) (List.getElem?_eq_some_iff.mp here).1
              rw [offset, count] at hop
              rw [← hop]
              rfl
  | switch otherwise cases =>
      simp only [Line.listed, Line.rebuilt]
      rw [found]
      simp only [List.map_cons, List.map_nil, Code.RawOperand.aimed, List.map_map]
      rfl
  | _ =>
      simp only [Line.listed, Line.rebuilt]
      rw [found]
      rfl

theorem aimed_listing (position : Nat) (lines : List Line) (far : List Bool)
    (isLines : all.drop position = lines) (isFar : layout.far.drop position = far) :
    (listing c layout position lines far).map (fun i =>
      (i.opcode, i.operand.aimed fun o => ⟨Code.rank (listing c layout 0 all layout.far) o⟩)) =
        rebuilt (ranked c layout all) (ordinal all layout.far position) lines far := by
  induction lines generalizing position far with
  | nil => rfl
  | cons line lines ih =>
      cases far with
      | nil => rfl
      | cons first far =>
          obtain ⟨here, next⟩ := drop_cons all lines line position isLines
          obtain ⟨hereFar, nextFar⟩ := drop_cons layout.far far first position isFar
          have later := ih (position + 1) far next nextFar
          rw [ordinal_succ all layout.far position line first here hereFar] at later
          rw [listing, List.map_append, laid.aimed_listed position line first here hereFar, later,
            rebuilt]

theorem targets_listed (position : Nat) (line : Line) (isFar : Bool)
    (here : all[position]? = some line) (mark : layout.far[position]? = some isFar)
    (i : Code.RawInstruction) (member : i ∈ line.listed c layout (layout.offset position) isFar)
    (t : Nat) (isTarget : t ∈ i.operand.targets) :
    t ∈ Code.starts (listing c layout 0 all layout.far) layout.length := by
  cases found : line.operand with
  | label label =>
      simp only [Line.listed] at member
      rw [found] at member
      cases member
  | jump label =>
      have placed := laid.place_mem_starts label
      simp only [Line.listed] at member
      rw [found] at member
      dsimp only at member
      split at member
      · cases List.mem_singleton.mp member
        cases List.mem_singleton.mp isTarget
        exact placed
      · rename_i far
        have isFar : isFar = true := by simpa using far
        subst isFar
        split at member
        · cases List.mem_singleton.mp member
          cases List.mem_singleton.mp isTarget
          exact placed
        · rename_i notGoto
          split at member
          · cases List.mem_singleton.mp member
            cases List.mem_singleton.mp isTarget
            exact placed
          · rename_i notJsr
            rcases List.mem_cons.mp member with rfl | member
            · cases List.mem_singleton.mp isTarget
              rw [← (laid.offset_hop position line label here mark found notGoto notJsr).1]
              exact laid.offset_mem_starts (position + 1)
            · cases List.mem_singleton.mp member
              cases List.mem_singleton.mp isTarget
              exact placed
  | switch otherwise cases =>
      simp only [Line.listed] at member
      rw [found] at member
      cases List.mem_singleton.mp member
      rcases List.mem_cons.mp isTarget with rfl | isTarget
      · exact laid.place_mem_starts otherwise
      · rw [List.map_map] at isTarget
        obtain ⟨k, _, rfl⟩ := List.mem_map.mp isTarget
        exact laid.place_mem_starts k.2
  | _ =>
      simp only [Line.listed] at member
      rw [found] at member
      cases List.mem_singleton.mp member
      cases isTarget

theorem targets_listing (position : Nat) (lines : List Line) (far : List Bool)
    (isLines : all.drop position = lines) (isFar : layout.far.drop position = far)
    (i : Code.RawInstruction) (member : i ∈ listing c layout position lines far)
    (t : Nat) (isTarget : t ∈ i.operand.targets) :
    t ∈ Code.starts (listing c layout 0 all layout.far) layout.length := by
  induction lines generalizing position far with
  | nil => cases member
  | cons line lines ih =>
      cases far with
      | nil => cases member
      | cons first far =>
          obtain ⟨here, next⟩ := drop_cons all lines line position isLines
          obtain ⟨hereFar, nextFar⟩ := drop_cons layout.far far first position isFar
          rcases List.mem_append.mp member with now | later
          · exact laid.targets_listed position line first here hereFar i now t isTarget
          · exact ih (position + 1) far next nextFar later

theorem ranked_eq (bounded : ∀ label position, c.labels.lookup label = some position →
    position ≤ all.length) : ranked c layout all = c.spot all layout.far := by
  funext label
  simp only [ranked, Context.spot, Context.place]
  cases found : c.labels.lookup label with
  | none =>
      have first := laid.rank_offset 0 (Nat.zero_le _)
      rw [laid.start] at first
      rw [Option.map_none, Option.getD_none, first]
  | some position =>
      rw [Option.map_some, Option.getD_some, Option.getD_some,
        laid.rank_offset position (bounded label position found)]

end LaidOut

end Assembler

end JvmEdit
