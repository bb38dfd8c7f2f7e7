import JvmEdit.Libraries.Standard
import JvmEdit.Proofs.ClassFile.Placed
import JvmEdit.Proofs.ClassFile.Structure
set_option autoImplicit false

namespace JvmEdit

namespace ClassFile

open Assembler (planned ordinal)
open Code (Placed Realises)
open JvmEdit.Flow (Acts Meets)

section Read

variable [Libraries] {m : Method} {qualified : String} {pool : Pool} {parts : CodeParts}
  {body : Code.Body} (read : BodyRead m qualified pool parts body)

include read

theorem BodyRead.line {p : Nat} {i : Instruction} (here : m.code.toList[p]? = some i) : ∃ line isFar,
    parts.lines[p]? = some line ∧ parts.layout.far[p]? = some isFar ∧
      line.opcode = i.opcode ∧ line.operand = i.operand ∧ line.Resolved pool := by
  have laid := Assembler.laid_out_layout _ parts.lines parts.layout read.layout
  obtain ⟨inside, isInstruction⟩ := List.getElem?_eq_some_iff.mp here
  have inside' : p < parts.lines.length := read.lines.length_eq ▸ inside
  obtain ⟨isFar, mark⟩ := laid.mark p inside'
  have same := read.lines.get inside inside'
  rw [List.get_eq_getElem, List.get_eq_getElem, isInstruction] at same
  exact ⟨_, isFar, List.getElem?_eq_getElem inside', mark, same⟩

theorem BodyRead.numbered (shaped : DecoderShaped m) (label : LabelId) (n : Nat)
    (marked : (label, n) ∈ Code.marks 0 body.instructions) : label.val < body.labelCount := by
  obtain ⟨_, listing⟩ := listing_parts m qualified shaped parts pool read.lines read.layout read.code
  exact Code.labels_numbered parts.code pool _ _ _ body listing (Assembler.bare_listing _ _ _ _ _)
    read.decoded label n marked

variable {code' : List Instruction} {ranges' : List TryRange}

theorem BodyRead.meets {label name : LabelId} (known : label ∈ parts.labels (codeContext m qualified) m)
    (placed : Placed code' name ((codeContext m qualified).spot parts.lines parts.layout.far label)) :
    Meets m.code.toList code' (ordinal parts.lines parts.layout.far) label name := by
  obtain ⟨position, marks⟩ := read.marked label known
  obtain ⟨last, stands⟩ := Flow.stands_of_marks _ label position marks
  obtain ⟨goal, isGoal, place⟩ := placed
  rw [(read.stands last label stands.1).2] at place
  exact ⟨last, goal, stands, isGoal, place.symm⟩

theorem BodyRead.meets_aim {p : Nat} {line : Assembler.Line} (here : parts.lines[p]? = some line)
    {label name : LabelId} (aim : label ∈ line.aims)
    (placed : Placed code' name ((codeContext m qualified).spot parts.lines parts.layout.far label)) :
    Meets m.code.toList code' (ordinal parts.lines parts.layout.far) label name := by
  refine read.meets (List.mem_append_left _ (List.mem_append_left _ (List.mem_append_left _ ?_))) placed
  exact List.mem_flatMap.mpr ⟨line, List.mem_of_getElem? here, aim⟩

section Expansion

variable (realises : Realises code' ranges' body.plan)

include realises

theorem BodyRead.each {p j q : Nat} {line : Assembler.Line} {isFar : Bool}
    (here : parts.lines[p]? = some line) (mark : parts.layout.far[p]? = some isFar) {r : Opcode × Operand}
    (isPart : (line.rebuilt ((codeContext m qualified).spot parts.lines parts.layout.far)
      (ordinal parts.lines parts.layout.far p) isFar)[j]? = some r) {i' : Instruction}
    (there : code'[q]? = some i') (real : i'.isLabel = false)
    (place : Flow.rank code' q = ordinal parts.lines parts.layout.far p + j) :
    Acts (planned r) i' ∧ ∀ label' ∈ i'.targets, ∃ place ∈ r.2.targets, Placed code' label' place := by
  obtain ⟨r', isPlanned, acts, targets⟩ := realises.each q i' there real
  rw [read.plan, place] at isPlanned
  have isWritten := Assembler.get_elem?_rebuilt _ 0 _ _ p line isFar here mark j r (by rwa [Nat.zero_add])
  cases isWritten.symm.trans isPlanned
  exact ⟨acts, targets⟩

theorem BodyRead.single {p : Nat} {i : Instruction} {line : Assembler.Line} {isFar : Bool}
    (here : parts.lines[p]? = some line) (mark : parts.layout.far[p]? = some isFar)
    (isCode : line.opcode = i.opcode) (isOperand : line.operand = i.operand) {r : Opcode × Operand}
    (plain : line.Plain ((codeContext m qualified).spot parts.lines parts.layout.far)
      (ordinal parts.lines parts.layout.far p) isFar r) :
    Flow.Single m.code.toList code' (ordinal parts.lines parts.layout.far) p i where
  next := by rw [Assembler.ordinal_succ _ _ p line isFar here mark, plain.width]
  mirrors := by
    intro q i' there real place
    have isPart := congrArg (fun written : List (Opcode × Operand) => written[0]?) plain.rebuilt
    obtain ⟨acts, targets⟩ := read.each realises here mark isPart there real place
    have same : Acts i line.instruction := by
      obtain ⟨id, op, operand⟩ := i
      obtain ⟨op', operand', index⟩ := line
      cases isCode
      cases isOperand
      exact ⟨rfl, rfl, rfl⟩
    refine ⟨(same.trans plain.acts).trans acts, fun label' named => ?_⟩
    obtain ⟨place, isPlace, placed⟩ := targets label' named
    rw [plain.aims] at isPlace
    obtain ⟨label, aim, rfl⟩ := List.mem_map.mp isPlace
    refine ⟨label, ?_, read.meets_aim here aim placed⟩
    rw [Instruction.targets, ← isOperand]
    exact Assembler.aims_targets line label aim

theorem BodyRead.hopped {p : Nat} {i : Instruction} {line : Assembler.Line} {label : LabelId}
    (here : parts.lines[p]? = some line) (mark : parts.layout.far[p]? = some true)
    (isCode : line.opcode = i.opcode) (isOperand : line.operand = i.operand)
    (hops : line.Hops ((codeContext m qualified).spot parts.lines parts.layout.far)
      (ordinal parts.lines parts.layout.far p) label) :
    Flow.Hopped m.code.toList code' (ordinal parts.lines parts.layout.far) p i := by
  obtain ⟨goesOn, stays, sameEffect, hopStays⟩ :=
    Assembler.branch_codes line.opcode hops.short hops.notGoto hops.notJsr
  have next : ordinal parts.lines parts.layout.far (p + 1) = ordinal parts.lines parts.layout.far p + 2 := by
    rw [Assembler.ordinal_succ _ _ p line true here mark, hops.width]
  have isJump : i.operand = .jump label := isOperand.symm.trans hops.jump
  refine ⟨next, ?_, ?_, fun q i' there real place => ?_, fun q i' there real place => ?_⟩
  · simp [Instruction.continues, isJump, ← isCode, goesOn]
  · simp [Instruction.callsSubroutine, isJump, ← isCode, stays]
  · have isPart := congrArg (fun written : List (Opcode × Operand) => written[0]?) hops.rebuilt
    obtain ⟨acts, targets⟩ := read.each realises here mark isPart there real place
    refine ⟨acts.effect.trans ?_, acts.calls.trans hopStays, fun label' named => ?_⟩
    · simp only [planned, isJump, ← isCode, Flow.effect, sameEffect]
    · obtain ⟨_, isPlace, goal, stands, rank⟩ := targets label' named
      cases List.mem_singleton.mp isPlace
      exact ⟨goal, stands, rank.trans next.symm⟩
  · have isPart := congrArg (fun written : List (Opcode × Operand) => written[1]?) hops.rebuilt
    obtain ⟨acts, targets⟩ := read.each realises here mark isPart there real place
    have codes : Opcode.gotoW.stackEffect = some (0, 0) := by decide +kernel
    have plain : ∀ label, Flow.effect Opcode.gotoW (.jump label) = .ok (0, 0) := fun label => by
      simp only [Flow.effect, codes, Option.getD_some]
    refine ⟨acts.effect.trans (plain _), acts.continues, acts.calls, fun label' named => ?_⟩
    obtain ⟨_, isPlace, placed⟩ := targets label' named
    cases List.mem_singleton.mp isPlace
    refine ⟨label, ?_, read.meets_aim here ?_ placed⟩
    · rw [Instruction.targets, isJump]
      exact List.mem_singleton_self _
    · rw [Assembler.Line.aims, hops.jump]
      exact List.mem_singleton_self _

theorem BodyRead.expands (shaped : DecoderShaped m) :
    Flow.Expands m.code.toList code' (ordinal parts.lines parts.layout.far) m.tryRanges ranges' where
  first := Assembler.ordinal_zero _ _
  marker := by
    intro p i here marker
    obtain ⟨line, isFar, isLine, mark, isCode, isOperand, _⟩ := read.line here
    have isShaped := shaped.shaped i (List.mem_of_getElem? here)
    obtain ⟨id, op, operand⟩ := i
    cases operand with
    | label label =>
        cases isShaped
        refine ⟨rfl, ?_⟩
        rw [Assembler.ordinal_succ _ _ p line isFar isLine mark, Assembler.Line.width, isOperand]
        rfl
    | _ => cases marker
  real := by
    intro p i here real
    obtain ⟨line, isFar, isLine, mark, isCode, isOperand, _⟩ := read.line here
    have laid := Assembler.laid_out_layout _ parts.lines parts.layout read.layout
    have suited := (shaped.shaped i (List.mem_of_getElem? here)).suited
    rw [← isCode, ← isOperand] at suited
    have isReal : line.operand.isLabel = false := isOperand ▸ real
    rcases Assembler.rebuilt_cases _ (ordinal parts.lines parts.layout.far p) line isFar suited isReal
      (fun far => laid.far p line isLine (far ▸ mark)) with ⟨r, plain⟩ | ⟨rfl, label, hops⟩
    · exact Or.inl (read.single realises isLine mark isCode isOperand plain)
    · exact Or.inr (read.hopped realises isLine mark isCode isOperand hops)
  total := by
    have laid := Assembler.laid_out_layout _ parts.lines parts.layout read.layout
    rw [realises.total, read.plan, CodeParts.plan, Assembler.length_rebuilt, ordinal,
      read.lines.length_eq, List.take_length, ← laid.marks, List.take_length]
  lone := realises.lone
  ranges := by
    intro range' member
    obtain ⟨r, isPlanned, start, stop, handler⟩ := realises.ranges range' member
    rw [read.plan] at isPlanned
    obtain ⟨range, kept, rfl⟩ := List.mem_map.mp isPlanned
    have isRange := (List.mem_filter.mp kept).1
    have bound : ∀ label ∈ [range.start, range.stop], label ∈ parts.labels (codeContext m qualified) m :=
      fun label inside => List.mem_append_left _ (List.mem_append_left _ (List.mem_append_right _
        (List.mem_flatMap.mpr ⟨range, isRange, inside⟩)))
    refine ⟨range, isRange, read.meets (bound _ (by simp)) start, read.meets (bound _ (by simp)) stop,
      read.meets ?_ handler⟩
    exact List.mem_append_left _ (List.mem_append_right _ (List.mem_map_of_mem kept))

end Expansion

end Read

theorem to_nat_max_stack [Libraries] (m : Method) (frames : Flow.Frames)
    (analysed : (Flow.analyse m.code m.tryRanges none).result = .ok frames)
    (low : frames.maxHeight ≤ 65535) : (maxStack m).toNat = frames.maxHeight := by
  rw [maxStack, analysed]
  dsimp only
  rw [Nat.min_eq_left low, UInt16.toNat_ofNat']
  omega

theorem BodyRead.accepted [Libraries] {m : Method} {qualified : String} {pool : Pool}
    {parts : CodeParts}
    {body : Code.Body} (read : BodyRead m qualified pool parts body) (shaped : DecoderShaped m)
    (filled : m.code.toList ≠ []) {names : LabelId → LabelId} {code' : Stream} {ranges' : List TryRange}
    (loads : body.Loads names code'.toList ranges') (frames : Flow.Frames)
    (analysed : (Flow.analyse m.code m.tryRanges none).result = .ok frames)
    (low : frames.maxHeight ≤ 65535) :
    ∃ frames', (Flow.analyse code' ranges' (some (maxStack m))).result = .ok frames' := by
  have realises := loads.realises read.tidy (read.numbered shaped)
  have consistent := ((Flow.accepted_iff m.code m.tryRanges none).mp ⟨frames, analysed⟩).resolve_left filled
  have heights := Flow.height?_analyse m.code m.tryRanges none frames analysed
  have below := (Flow.Frames.max_height_le_iff frames (maxStack m).toNat).mp
    (Nat.le_of_eq (to_nat_max_stack m frames analysed low).symm)
  refine (Flow.accepted_iff code' ranges' _).mpr (Or.inr ?_)
  exact (read.expands realises shaped).consistent_of_low consistent filled
    (fun i member => (shaped.shaped i member).suited) fun c reaches => below _ _ ((heights _ _).mpr reaches)

-- What comes of a method that is written and read again. When its body is accepted without a bound and
-- its greatest height can be written, the height is written, no lower bound would do for the body, and
-- the body is accepted once it is read.
structure ReadAgain [Libraries] (m m' : Method) : Prop where
  name : m'.name = m.name
  descriptor : m'.descriptor = m.descriptor
  bounded : ∀ frames, (Flow.analyse m.code m.tryRanges none).result = .ok frames →
    frames.maxHeight ≤ 65535 → (maxStack m).toNat = frames.maxHeight ∧
      (∀ n : UInt16, (∃ frames', (Flow.analyse m.code m.tryRanges (some n)).result = .ok frames') ↔
        maxStack m ≤ n) ∧
      (m.code.isEmpty = false → m'.maxStack = some (maxStack m)) ∧ ∃ frames', m'.analyse.result = .ok frames'

theorem tells_read_again [Libraries] {className : String} {m : Method} {pool : Pool}
    {events : List ClassEvent}
    (read : MethodRead className m pool events) (shaped : DecoderShaped m) :
    Builder.Tells (ReadAgain m) events := by
  have least : ∀ frames, (Flow.analyse m.code m.tryRanges none).result = .ok frames →
      frames.maxHeight ≤ 65535 → ∀ n : UInt16,
        (∃ frames', (Flow.analyse m.code m.tryRanges (some n)).result = .ok frames') ↔ maxStack m ≤ n := by
    intro frames analysed low n
    have suited := fun i member => (shaped.shaped i member).suited
    rw [(Flow.analyse_bounded m.code m.tryRanges frames suited analysed n).1, UInt16.le_iff_toNat_le,
      to_nat_max_stack m frames analysed low]
  cases read with
  | bodiless empty =>
      refine ⟨methodDecl m, ⟨0, [], [], []⟩, none, none, rfl, fun m' built => ?_⟩
      refine ⟨built.name, built.descriptor, fun frames analysed low =>
        ⟨to_nat_max_stack m frames analysed low, least frames analysed low, fun filled => ?_, ?_⟩⟩
      · cases empty.symm.trans filled
      · obtain ⟨names, loads⟩ := built.body
        exact (Flow.accepted_iff m'.code m'.tryRanges _).mpr (Or.inl (List.map_eq_nil_iff.mp loads.code))
  | body filled parts body read =>
      refine ⟨methodDecl m, body, some (maxStack m), some (maxLocals m), rfl, fun m' built => ?_⟩
      refine ⟨built.name, built.descriptor, fun frames analysed low =>
        ⟨to_nat_max_stack m frames analysed low, least frames analysed low, fun _ => built.maxStack, ?_⟩⟩
      obtain ⟨names, loads⟩ := built.body
      have nonempty : m.code.toList ≠ [] := by simpa [Stream.isEmpty] using filled
      rw [Method.analyse, built.maxStack]
      exact read.accepted shaped nonempty loads frames analysed low

-- The greatest height of a body is the least bound under which the body is accepted, and under any
-- bound that will do the heights are the same. It is the bound that is written with the body, when it can
-- be written, and every method that is loaded from the written class is accepted under the bound that it
-- comes with.
theorem max_height_least [Libraries] :
    (∀ (code : Stream) (ranges : List TryRange) (frames : Flow.Frames),
      (∀ i ∈ code.toList, Code.Suited i.opcode i.operand) →
      (Flow.analyse code ranges none).result = .ok frames → ∀ n : UInt16,
        ((∃ frames', (Flow.analyse code ranges (some n)).result = .ok frames') ↔
          frames.maxHeight ≤ n.toNat) ∧
        ∀ frames', (Flow.analyse code ranges (some n)).result = .ok frames' → frames' = frames) ∧
    ∀ (p : Program) (id : ClassId) (c : Class) (bytes : List UInt8), p.class? id = some c →
      ClassFits c (liveFields p c) (liveMethods p c) → encode p id = .ok bytes →
      Libraries.classFileFault? bytes = none → ∃ file, decode bytes false = .ok (pure file) ∧
        ∀ (q : Program) (method : MethodId) (m' : Method),
          (q.load file.events).value.program.method? method = some m' →
            q.method? method = some m' ∨ ∃ m ∈ liveMethods p c, ReadAgain m m' := by
  refine ⟨Flow.analyse_bounded, fun p id c bytes found fits written accepted => ?_⟩
  obtain ⟨pool, told, decoded, read⟩ := decode_written p id c bytes found fits written accepted
  refine ⟨_, decoded, fun q method m' loaded => ?_⟩
  have each : ∀ events ∈ told, Builder.Tells (fun m' => ∃ m ∈ liveMethods p c, ReadAgain m m') events := by
    refine forall₂_left ((List.forall₂_and_left _ _).mpr ⟨fun m member => member, read⟩).flip ?_
    rintro events m ⟨member, isRead⟩
    obtain ⟨d, body, stack, slots, isEvents, again⟩ := tells_read_again isRead (fits.methods m member).shaped
    exact ⟨d, body, stack, slots, isEvents, fun m' built => ⟨m, member, again m' built⟩⟩
  refine q.method?_load (headerOf c (versionOf p c)) ((liveFields p c).map fieldDecl) told _ each method m' ?_
  rw [List.map_map]
  exact loaded

-- A branch over a sum, with a handler behind.
def guardedSum : Method where
  owner := ⟨1⟩
  name := "sum"
  descriptor := "()V"
  signature := none
  access := ⟨8⟩
  kind := .method
  exceptions := []
  annotations := []
  code := ⟨[⟨⟨10⟩, Opcode.label, .label ⟨0⟩⟩, ⟨⟨11⟩, 0x04, .simple⟩, ⟨⟨12⟩, Opcode.ifEq, .jump ⟨1⟩⟩,
    ⟨⟨13⟩, 0x04, .simple⟩, ⟨⟨14⟩, 0x04, .simple⟩, ⟨⟨15⟩, 0x60, .simple⟩, ⟨⟨16⟩, 0x57, .simple⟩,
    ⟨⟨17⟩, Opcode.label, .label ⟨1⟩⟩, ⟨⟨18⟩, Opcode.returnVoid, .simple⟩,
    ⟨⟨19⟩, Opcode.label, .label ⟨2⟩⟩, ⟨⟨20⟩, 0x57, .simple⟩, ⟨⟨21⟩, Opcode.returnVoid, .simple⟩]⟩
  tryRanges := [⟨⟨0⟩, ⟨1⟩, ⟨2⟩, some "E"⟩]

def summing : Class where
  name := "S"
  superName := some "java/lang/Object"
  interfaces := []
  signature := none
  access := ⟨0x0021⟩
  version := 52
  bootstrapMethods := []
  annotations := []
  methods := [⟨2⟩]

def summed : Program where
  classes := ⟨[(⟨1⟩, summing)]⟩
  methods := ⟨[(⟨2⟩, guardedSum)]⟩

theorem fits_summing : ClassFits summing (liveFields summed summing) (liveMethods summed summing) where
  interfaces := by decide
  fieldCount := by decide
  methodCount := by decide
  fields := by
    intro f member
    cases member
  methods := by
    intro m member
    cases List.mem_singleton.mp member
    exact ⟨⟨by decide +kernel, by decide +kernel⟩, by decide, by decide, by decide,
      ⟨by decide, by decide, by decide⟩⟩
  annotations := ⟨by decide, by decide, by decide⟩
  bootstrap := ⟨by decide, by decide, fun _ member => (List.not_mem_nil member).elim, by decide⟩

-- Two slots are needed, one would not do, and two are written.
theorem max_height_least_guarded_sum : summed.class? ⟨1⟩ = some summing ∧
    ClassFits summing (liveFields summed summing) (liveMethods summed summing) ∧
    (∃ frames, (Flow.analyse guardedSum.code guardedSum.tryRanges none).result = .ok frames ∧
      frames.maxHeight = 2 ∧
      ¬∃ frames', (Flow.analyse guardedSum.code guardedSum.tryRanges (some 1)).result = .ok frames') ∧
    ∃ bytes, encode summed ⟨1⟩ = .ok bytes ∧ Libraries.classFileFault? bytes = none ∧
      ∃ file, decode bytes false = .ok (pure file) ∧ ∀ (method : MethodId) (m' : Method),
        (Program.load {} file.events).value.program.method? method = some m' →
          m'.maxStack = some 2 ∧ ∃ frames', m'.analyse.result = .ok frames' := by
  obtain ⟨least, again⟩ := max_height_least
  obtain ⟨frames, accepted, high⟩ := except_shown
    (Flow.analyse guardedSum.code guardedSum.tryRanges none).result Flow.Frames.maxHeight 2 (by decide +kernel)
  have shaped := (fits_summing.methods guardedSum (List.mem_singleton_self _)).shaped
  have needs := (least guardedSum.code guardedSum.tryRanges frames
    (fun i member => (shaped.shaped i member).suited) accepted 1).1
  obtain ⟨bytes, written, valid⟩ :=
    except_shown (encode summed ⟨1⟩) Libraries.classFileFault? none (by decide +kernel)
  obtain ⟨file, decoded, loaded⟩ :=
    again summed ⟨1⟩ summing bytes (by decide) fits_summing written valid
  refine ⟨by decide, fits_summing, ⟨frames, accepted, high, fun low => ?_⟩, bytes, written, valid, file,
    decoded, fun method m' found => ?_⟩
  · have low := needs.mp low
    rw [high] at low
    exact absurd low (by decide)
  · rcases loaded {} method m' found with old | ⟨m, member, read⟩
    · cases old
    · cases List.mem_singleton.mp member
      obtain ⟨isHigh, _, limit, result⟩ := read.bounded frames accepted (high ▸ by decide)
      have two : maxStack guardedSum = 2 := UInt16.toNat_inj.mp (isHigh.trans high)
      exact ⟨two ▸ limit rfl, result⟩

end ClassFile

end JvmEdit
