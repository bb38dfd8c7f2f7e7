import JvmEdit.Proofs.ClassFile.Instructions
import JvmEdit.Proofs.Flow.Exact
set_option autoImplicit false

namespace JvmEdit

namespace Code

-- The operand is of the kind that the code is read with.
def Suited (op : Opcode) : Operand → Prop
  | .label _ => op = Opcode.label
  | .simple => isSimple op = true
  | .int _ => op = Opcode.bipush ∨ op = Opcode.sipush
  | .var _ => takesSlot op = true
  | .increment _ _ => op = Opcode.iinc
  | .constant _ => op = Opcode.ldc ∨ op = Opcode.ldcW ∨ op = Opcode.ldc2W
  | .jump _ => isShortBranch op = true ∨ Assembler.isWideBranch op = true
  | .switch _ _ => op = Opcode.tableSwitch ∨ op = Opcode.lookupSwitch
  | .field _ => isFieldAccess op = true
  | .call _ => isCall op = true
  | .dynamicCall _ => op = Opcode.invokeDynamic
  | .type _ => isTyped op = true
  | .newArray _ => op = Opcode.newArray
  | .multiArray _ _ => op = Opcode.newMultiArray

theorem Shaped.suited {op : Opcode} {operand : Operand} (shaped : Shaped op operand) :
    Suited op operand := by
  cases operand with
  | int value => exact shaped.imp And.left And.left
  | constant value => exact shaped.1
  | switch otherwise cases => exact shaped.symm.imp And.left id
  | field use => exact shaped.1
  | call call => exact shaped.1
  | _ => exact shaped

end Code

namespace Flow

theorem exit_codes (op : Opcode) (exits : op.isExit = true) : (op.stackEffect.getD (0, 0)).2 = 0 ∧
    (Code.isFieldAccess op || Code.isCall op || op = Opcode.ldc || op = Opcode.ldcW ||
      op = Opcode.ldc2W || op = Opcode.invokeDynamic || op = Opcode.newMultiArray) = false := by
  have all := Opcode.forall_of_all (fun op => !op.isExit || ((op.stackEffect.getD (0, 0)).2 == 0 &&
    !(Code.isFieldAccess op || Code.isCall op || op = Opcode.ldc || op = Opcode.ldcW ||
      op = Opcode.ldc2W || op = Opcode.invokeDynamic || op = Opcode.newMultiArray))) (by decide +kernel) op
  rw [exits, Bool.not_true, Bool.false_or, Bool.and_eq_true, Bool.not_eq_true', beq_iff_eq] at all
  exact all

theorem effect_of_exit [Libraries] {op : Opcode} {operand : Operand} (suited : Code.Suited op operand)
    (exits : op.isExit = true) : effect op operand = effect op .simple := by
  obtain ⟨_, others⟩ := exit_codes op exits
  simp only [Bool.or_eq_false_iff, decide_eq_false_iff_not] at others
  obtain ⟨⟨⟨⟨⟨⟨notField, notCall⟩, notLdc⟩, notLdcW⟩, notLdc2W⟩, notDynamic⟩, notMulti⟩ := others
  cases operand with
  | label label =>
      rw [show op = Opcode.label from suited] at exits
      cases exits
  | constant value => exact absurd suited (not_or.mpr ⟨notLdc, not_or.mpr ⟨notLdcW, notLdc2W⟩⟩)
  | field use => exact absurd (notField.symm.trans suited) Bool.false_ne_true
  | call call => exact absurd (notCall.symm.trans suited) Bool.false_ne_true
  | dynamicCall call => exact absurd suited notDynamic
  | multiArray name dimensions => exact absurd suited notMulti
  | _ => rfl

theorem pushes_of_exit [Libraries] {op : Opcode} {operand : Operand} {pops pushes : Nat}
    (suited : Code.Suited op operand) (exits : op.isExit = true)
    (read : effect op operand = .ok (pops, pushes)) : pushes = 0 := by
  rw [effect_of_exit suited exits] at read
  have pair : op.stackEffect.getD (0, 0) = (pops, pushes) := Except.ok.inj read
  have fixed := (exit_codes op exits).1
  rw [pair] at fixed
  exact fixed

section Heights

variable {code : List Instruction} {ranges : List TryRange} {limit : Option UInt16}

theorem Carries.unbounded [Libraries] {i : Instruction} {before after : Nat}
    (carries : Carries limit i before after) : Carries none i before after := by
  obtain ⟨pops, pushes, read, fits, isAfter, _⟩ := carries
  exact ⟨pops, pushes, read, fits, isAfter, fun _ none => by cases none⟩

theorem Steps.unbounded [Libraries] {c d : Config} (steps : Steps code ranges limit c d) :
    Steps code ranges none c d := by
  rcases steps with flows | raises
  · refine Or.inl ?_
    cases flows with
    | target here carries named stands => exact .target here carries.unbounded named stands
    | next here carries continues stays inside => exact .next here carries.unbounded continues stays inside
    | comeBack here carries calls inside => exact .comeBack here carries.unbounded calls inside
  · exact Or.inr raises

theorem Reaches.unbounded [Libraries] {c : Config} (reaches : Reaches code ranges limit c) :
    Reaches code ranges none c :=
  ⟨reaches.1, Relation.ReflTransGen.mono (fun _ _ => Steps.unbounded) _ _ reaches.2⟩

theorem Carries.arrives [Libraries] {p before after : Nat} {i : Instruction} (here : code[p]? = some i)
    (suited : Code.Suited i.opcode i.operand) (consistent : Consistent code ranges limit)
    (reaches : Reaches code ranges limit ⟨p, before⟩) (carries : Carries limit i before after) :
    ∃ c, Reaches code ranges limit c ∧ after ≤ c.height := by
  have faultless := consistent.faultless _ reaches
  by_cases aims : i.targets = []
  · cases continues : i.continues with
    | true =>
        have stays : i.callsSubroutine = false := by
          obtain ⟨id, op, operand⟩ := i
          cases operand with
          | jump label => cases aims
          | _ => rfl
        have inside : p + 1 < code.length :=
          Nat.lt_of_not_le fun last => faultless (.fallsOff here continues last)
        have flows := Flows.next here carries continues stays inside
        exact ⟨⟨p + 1, after⟩, ⟨reaches.1, reaches.2.tail (Or.inl flows)⟩, Nat.le_refl _⟩
    | false =>
        have exits : i.opcode.isExit = true := by
          obtain ⟨id, op, operand⟩ := i
          cases operand with
          | jump label => cases aims
          | switch otherwise cases => cases aims
          | _ => simpa [Instruction.continues] using continues
        obtain ⟨pops, pushes, read, _, rfl, _⟩ := carries
        refine ⟨_, reaches, ?_⟩
        rw [pushes_of_exit suited exits read]
        exact Nat.sub_le before pops
  · obtain ⟨label, named⟩ := List.exists_mem_of_ne_nil _ aims
    have marked : ∃ q, Marks code q label := by
      by_contra absent
      exact faultless (.unknownLabel here named (not_exists.mp absent))
    obtain ⟨q, marks⟩ := marked
    obtain ⟨goal, stands⟩ := stands_of_marks code label q marks
    have flows := Flows.target here carries named stands
    exact ⟨⟨goal, after⟩, ⟨reaches.1, reaches.2.tail (Or.inl flows)⟩, Nat.le_refl _⟩

theorem Carries.low [Libraries] {n : UInt16} {p before after : Nat} {i : Instruction}
    (here : code[p]? = some i)
    (suited : Code.Suited i.opcode i.operand) (consistent : Consistent code ranges limit)
    (low : ∀ c, Reaches code ranges limit c → c.height ≤ n.toNat)
    (reaches : Reaches code ranges limit ⟨p, before⟩) (carries : Carries limit i before after) :
    after ≤ n.toNat := by
  obtain ⟨c, arrives, above⟩ := carries.arrives here suited consistent reaches
  exact Nat.le_trans above (low c arrives)

theorem effect_marker [Libraries] {p : Nat} {label : LabelId} (marks : Marks code p label) :
    ∃ i, code[p]? = some i ∧ effect i.opcode i.operand = .ok (0, 0) := by
  obtain ⟨⟨id, op, operand⟩, here, marked⟩ := Option.bind_eq_some_iff.mp marks
  cases operand with
  | label other => exact ⟨_, here, rfl⟩
  | _ => cases marked

theorem Consistent.within [Libraries] {n : UInt16} (consistent : Consistent code ranges (some n))
    {c : Config} (reaches : Reaches code ranges none c) :
    Reaches code ranges (some n) c ∧ c.height ≤ n.toNat := by
  obtain ⟨nonempty, path⟩ := reaches
  induction path with
  | refl => exact ⟨⟨nonempty, .refl⟩, Nat.zero_le _⟩
  | @tail c d path steps ih =>
      obtain ⟨reaches, low⟩ := ih
      have faultless := consistent.faultless c reaches
      have bounded : ∀ {i : Instruction} {after : Nat}, code[c.position]? = some i →
          Carries none i c.height after → Carries (some n) i c.height after := by
        rintro i after here ⟨pops, pushes, read, fits, rfl, _⟩
        refine ⟨pops, pushes, read, fits, rfl, fun bound same => ?_⟩
        exact Nat.le_of_not_lt fun high => faultless (.overflow here read same high)
      rcases steps with flows | raises
      · cases flows with
        | target here carries named stands =>
            have within := bounded here carries
            obtain ⟨_, _, _, _, _, below⟩ := id within
            exact ⟨⟨nonempty, reaches.2.tail (Or.inl (.target here within named stands))⟩, below n rfl⟩
        | next here carries continues stays inside =>
            have within := bounded here carries
            obtain ⟨_, _, _, _, _, below⟩ := id within
            exact ⟨⟨nonempty, reaches.2.tail (Or.inl (.next here within continues stays inside))⟩,
              below n rfl⟩
        | comeBack here carries calls inside =>
            have within := bounded here carries
            exact ⟨⟨nonempty, reaches.2.tail (Or.inl (.comeBack here within calls inside))⟩, low⟩
      · have entered : Reaches code ranges (some n) d := ⟨nonempty, reaches.2.tail (Or.inr raises)⟩
        refine ⟨entered, Nat.le_of_not_lt fun high => consistent.faultless d entered ?_⟩
        -- the exception alone would be too much for the marker that the handler starts at
        cases raises with
        | handler _ _ _ enters _ _ =>
            obtain ⟨i, here, read⟩ := effect_marker enters.1
            exact .overflow here read rfl high

theorem Consistent.bounded [Libraries] {n : UInt16} (consistent : Consistent code ranges none)
    (suited : ∀ i ∈ code, Code.Suited i.opcode i.operand)
    (low : ∀ c, Reaches code ranges none c → c.height ≤ n.toNat) : Consistent code ranges (some n) where
  labels := consistent.labels
  heights := fun p h h' reaches reaches' => consistent.heights p h h' reaches.unbounded reaches'.unbounded
  faultless := by
    intro c reaches faulty
    have faultless := consistent.faultless c reaches.unbounded
    cases faulty with
    | descriptor here call unreadable => exact faultless (.descriptor here call unreadable)
    | underflow here read below => exact faultless (.underflow here read below)
    | unknownLabel here named absent => exact faultless (.unknownLabel here named absent)
    | fallsOff here continues last => exact faultless (.fallsOff here continues last)
    | @overflow p before pops pushes i bound here read same high =>
        cases same
        have fits := Nat.le_of_not_lt fun below => faultless (.underflow here read below)
        have carries : Carries none i before (before - pops + pushes) :=
          ⟨pops, pushes, read, fits, rfl, fun _ none => by cases none⟩
        exact Nat.not_lt.mpr (carries.low here (suited i (List.mem_of_getElem? here)) consistent low
          reaches.unbounded) high

end Heights

theorem Frames.max_height_le_iff (frames : Frames) (n : Nat) :
    frames.maxHeight ≤ n ↔ ∀ p h, frames.height? p = some h → h ≤ n := by
  have general : ∀ (heights : List (Option Nat)) (m : Nat),
      heights.foldl (fun m h => max m (h.getD 0)) m ≤ n ↔ m ≤ n ∧ ∀ h, some h ∈ heights → h ≤ n := by
    intro heights
    induction heights with
    | nil => simp
    | cons first heights ih =>
        intro m
        rw [List.foldl_cons, ih, Nat.max_le]
        cases first with
        | none => simp
        | some height => simp [and_assoc]
  rw [Frames.maxHeight, ← Array.foldl_toList, general]
  constructor
  · rintro ⟨_, all⟩ p h found
    refine all h (List.mem_of_getElem? (i := p) ?_)
    rw [Array.getElem?_toList]
    exact Option.join_eq_some_iff.mp found
  · intro all
    refine ⟨Nat.zero_le _, fun h member => ?_⟩
    obtain ⟨p, found⟩ := List.mem_iff_getElem?.mp member
    rw [Array.getElem?_toList] at found
    exact all p h (Option.join_eq_some_iff.mpr found)

theorem frames_unique [Libraries] {code : Stream} {ranges : List TryRange}
    {limit limit' : Option UInt16}
    {frames frames' : Frames} (analysed : (analyse code ranges limit).result = .ok frames)
    (analysed' : (analyse code ranges limit').result = .ok frames')
    (same : ∀ c, Reaches code.toList ranges limit c ↔ Reaches code.toList ranges limit' c) :
    frames = frames' := by
  rw [analyse_eq] at analysed analysed'
  by_cases empty : code.toList = []
  · rw [analyse_by_empty _ _ _ _ empty] at analysed analysed'
    cases analysed
    cases analysed'
    rfl
  · obtain ⟨_, w, rfl, _, explores, finished⟩ := analyse_by_ok _ code ranges limit empty frames analysed
    obtain ⟨_, w', rfl, _, explores', finished'⟩ := analyse_by_ok _ code ranges limit' empty frames' analysed'
    refine congrArg Frames.mk (Walk.heights_ext (explores.size.trans explores'.size.symm) fun p =>
      Option.ext fun h => ?_)
    rw [explores.height?_iff finished, explores'.height?_iff finished', same]

theorem analyse_bounded [Libraries] (code : Stream) (ranges : List TryRange) (frames : Frames)
    (suited : ∀ i ∈ code.toList, Code.Suited i.opcode i.operand)
    (analysed : (analyse code ranges none).result = .ok frames) (n : UInt16) :
    ((∃ frames', (analyse code ranges (some n)).result = .ok frames') ↔ frames.maxHeight ≤ n.toNat) ∧
      ∀ frames', (analyse code ranges (some n)).result = .ok frames' → frames' = frames := by
  have accepted := accepted_iff code ranges none
  have acceptedBounded := accepted_iff code ranges (some n)
  have heights := height?_analyse code ranges none frames analysed
  have highest : frames.maxHeight ≤ n.toNat ↔
      ∀ c, Reaches code.toList ranges none c → c.height ≤ n.toNat := by
    rw [Frames.max_height_le_iff]
    exact ⟨fun low c reaches => low _ _ ((heights _ _).mpr reaches),
      fun low p h found => low ⟨p, h⟩ ((heights p h).mp found)⟩
  rw [acceptedBounded, highest]
  rcases accepted.mp ⟨frames, analysed⟩ with empty | consistent
  · refine ⟨⟨fun _ c reaches => absurd empty reaches.1, fun _ => Or.inl empty⟩, fun frames' again => ?_⟩
    exact frames_unique again analysed fun c =>
      ⟨fun reaches => absurd empty reaches.1, fun reaches => absurd empty reaches.1⟩
  · refine ⟨⟨?_, fun low => Or.inr (consistent.bounded suited low)⟩, fun frames' again => ?_⟩
    · rintro (empty | bounded) c reaches
      · exact absurd empty reaches.1
      · exact (bounded.within reaches).2
    · rcases acceptedBounded.mp ⟨frames', again⟩ with empty | bounded
      · exact frames_unique again analysed fun c =>
          ⟨fun reaches => absurd empty reaches.1, fun reaches => absurd empty reaches.1⟩
      · exact frames_unique again analysed fun c =>
          ⟨Reaches.unbounded, fun reaches => (bounded.within reaches).1⟩

end Flow

end JvmEdit
