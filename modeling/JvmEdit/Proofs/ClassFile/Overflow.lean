import JvmEdit.Libraries.Standard
import JvmEdit.Proofs.ClassFile.CodeAttribute
import JvmEdit.Proofs.ClassFile.Sizes
import Mathlib.Algebra.GroupWithZero.Nat
set_option autoImplicit false

namespace JvmEdit

-- What is wrong with a request: the pool is full, a text does not fit, a label stands nowhere.
def EncodeError.isRefusal : EncodeError → Bool
  | .poolOverflow | .stringTooLong _ | .unknownLabel .. => true
  | _ => false

-- The encoder fails with refusals only.
def Refusing {α : Type} (e : Encoder α) : Prop := ∀ b err, e b = .error err → err.isRefusal = true

theorem state_t_bind_error {σ ε α β : Type} (x : StateT σ (Except ε) α) (f : α → StateT σ (Except ε) β)
    (b : σ) (err : ε) : (x >>= f) b = .error err ↔
      x b = .error err ∨ ∃ a b', x b = .ok (a, b') ∧ f a b' = .error err := by
  simp only [bind, StateT.bind]
  cases x b with
  | error e => simp [Except.bind]
  | ok result =>
      obtain ⟨a, b'⟩ := result
      simp [Except.bind]

theorem encoder_lift_error {α : Type} (result : Except EncodeError α) (b : PoolBuilder)
    (err : EncodeError) : (liftM result : Encoder α) b = .error err ↔ result = .error err := by
  cases result with
  | error e => exact Iff.intro (fun failed => by cases failed; rfl) fun failed => by cases failed; rfl
  | ok value => exact Iff.intro (fun failed => by cases failed) fun failed => by cases failed

theorem encoder_lift_ok {α : Type} (result : Except EncodeError α) (b b' : PoolBuilder) (value : α) :
    (liftM result : Encoder α) b = .ok (value, b') ↔ result = .ok value ∧ b' = b :=
  ⟨encoder_lift result b b' value, fun ⟨done, same⟩ => by rw [done, same]; rfl⟩

namespace Refusing

variable {α β : Type}

theorem pure (value : α) : Refusing (Pure.pure value) := fun _ _ failed => by cases failed

theorem bind {x : Encoder α} {f : α → Encoder β} (head : Refusing x) (tail : ∀ a, Refusing (f a)) :
    Refusing (x >>= f) := by
  intro b err failed
  rcases (state_t_bind_error x f b err).mp failed with first | ⟨a, b', _, later⟩
  · exact head b err first
  · exact tail a b' err later

theorem map {x : Encoder α} (f : α → β) (refusing : Refusing x) : Refusing (f <$> x) :=
  refusing.bind fun _ => pure _

theorem map_m (f : α → Encoder β) (items : List α) (each : ∀ a, Refusing (f a)) :
    Refusing (items.mapM f) := by
  induction items with
  | nil => exact pure _
  | cons a items ih =>
      rw [List.mapM_cons]
      exact (each a).bind fun _ => ih.bind fun _ => pure _

theorem add (item : PoolItem) : Refusing (PoolBuilder.add item) := by
  intro b err failed
  rw [PoolBuilder.add] at failed
  split at failed
  · cases failed
  · split at failed
    · cases failed
      rfl
    · cases failed

theorem utf8 (text : String) : Refusing (PoolBuilder.utf8 text) := by
  unfold PoolBuilder.utf8
  dsimp only
  split
  · intro b err failed
    cases failed
    rfl
  · exact add _

theorem class_name (name : String) : Refusing (PoolBuilder.className name) :=
  (utf8 name).bind fun _ => add _

theorem name_and_type (name descriptor : String) : Refusing (PoolBuilder.nameAndType name descriptor) :=
  (utf8 name).bind fun _ => (utf8 descriptor).bind fun _ => add _

theorem field_ref (owner name descriptor : String) : Refusing (PoolBuilder.fieldRef owner name descriptor) :=
  (class_name owner).bind fun _ => (name_and_type name descriptor).bind fun _ => add _

theorem method_ref (owner name descriptor : String) (isInterface : Bool) :
    Refusing (PoolBuilder.methodRef owner name descriptor isInterface) :=
  (class_name owner).bind fun _ => (name_and_type name descriptor).bind fun _ => add _

theorem dynamic_call (bootstrap : UInt16) (name descriptor : String) :
    Refusing (PoolBuilder.dynamicCall bootstrap name descriptor) :=
  (name_and_type name descriptor).bind fun _ => add _

theorem handle_member (kind : UInt8) (owner name descriptor : String) (isInterface : Bool) :
    Refusing (PoolBuilder.handleMember kind owner name descriptor isInterface) := by
  simp only [PoolBuilder.handleMember]
  split
  · exact field_ref owner name descriptor
  · exact method_ref owner name descriptor isInterface

theorem constant (value : Constant) : Refusing (PoolBuilder.constant value) := by
  cases value with
  | string text => exact (utf8 text).bind fun _ => add _
  | classRef name => exact class_name name
  | methodType descriptor => exact (utf8 descriptor).bind fun _ => add _
  | methodHandle kind owner name descriptor isInterface =>
      rw [PoolBuilder.constant_method_handle]
      exact (handle_member kind owner name descriptor isInterface).bind fun _ => add _
  | dynamic name descriptor bootstrap => exact (name_and_type name descriptor).bind fun _ => add _
  | _ => exact add _

theorem operand_index (operand : Operand) : Refusing (Assembler.operandIndex operand) := by
  cases operand with
  | constant value => exact constant value
  | field use => exact field_ref _ _ _
  | call call => exact method_ref _ _ _ _
  | dynamicCall call => exact dynamic_call _ _ _
  | type name => exact class_name name
  | multiArray name dimensions => exact class_name name
  | _ => exact pure _

theorem lines_onto (reversed : List Assembler.Line) (code : List Instruction) :
    Refusing (Assembler.linesOnto reversed code) := by
  induction code generalizing reversed with
  | nil => exact pure _
  | cons i code ih => exact (operand_index i.operand).bind fun _ => ih _

section Tables

variable (c : Assembler.Context) (layout : Assembler.Layout)

theorem offset16 (label : LabelId) : Refusing (ClassFile.offset16 c layout label) := by
  refine bind (fun b err failed => ?_) fun _ => pure _
  have missing := (encoder_lift_error (c.target layout label) b err).mp failed
  rw [Assembler.Context.target] at missing
  split at missing
  · cases missing
  · cases missing
    rfl

theorem range_bytes (range : TryRange) : Refusing (ClassFile.rangeBytes c layout range) := by
  rw [ClassFile.range_bytes_eq]
  refine (offset16 c layout _).bind fun start => (offset16 c layout _).bind fun stop => ?_
  by_cases empty : stop ≤ start
  · rw [if_pos empty]
    exact pure _
  · rw [if_neg empty]
    refine bind ?_ fun _ => (offset16 c layout _).bind fun _ => pure _
    cases range.catchType with
    | none => exact pure _
    | some name => exact class_name name

theorem local_bytes (v : LocalVariable) : Refusing (ClassFile.localBytes c layout v) := by
  simp only [ClassFile.localBytes]
  refine (offset16 c layout _).bind fun start => (offset16 c layout _).bind fun stop => ?_
  refine ((utf8 _).map _).bind fun name => ((utf8 _).map _).bind fun descriptor => ?_
  cases v.signature with
  | none => exact pure _
  | some signature => exact ((utf8 _).map _).bind fun _ => ((utf8 _).map _).bind fun _ => pure _

theorem named (name : String) (body : List UInt8) : Refusing (ClassFile.named name body) :=
  (utf8 name).bind fun _ => pure _

end Tables

end Refusing

namespace Assembler

-- The opcodes of branches that are taken to have an opposite, and have none.
def lacksOpposite (op : Opcode) : Bool := op < Opcode.ifEq || op = 255

theorem inverted_error_iff (op : Opcode) (err : EncodeError) :
    inverted op = .error err ↔ lacksOpposite op = true ∧ err = .arithmetic := by
  have facts := Opcode.forall_of_all (fun op => match inverted op with
    | .ok _ => !lacksOpposite op
    | .error e => lacksOpposite op && e == .arithmetic) (by decide +kernel) op
  cases result : inverted op with
  | ok hop =>
      rw [result] at facts
      exact iff_of_false nofun fun both => by simp [both.1] at facts
  | error e =>
      rw [result] at facts
      obtain ⟨odd, isArithmetic⟩ := (Bool.and_eq_true ..).mp facts
      rw [beq_iff_eq.mp isArithmetic]
      exact ⟨fun same => ⟨odd, (Except.error.inj same).symm⟩, fun both => congrArg _ both.2.symm⟩

theorem lacks_opposite_plain (op : Opcode) (odd : lacksOpposite op = true) :
    isWideBranch op = false ∧ op ≠ Opcode.goto ∧ op ≠ Opcode.jsr := by
  have facts := Opcode.forall_of_all (fun op => !lacksOpposite op || (!isWideBranch op &&
    op ≠ Opcode.goto && op ≠ Opcode.jsr)) (by decide +kernel) op
  simpa [odd, and_assoc] using facts

section Emission

variable (c : Context) (layout : Layout)

theorem error_relative (offset : Nat) (label : LabelId) (err : EncodeError)
    (failed : i32 <$> c.distance layout offset label = .error err) : err.isRefusal = true := by
  cases found : c.distance layout offset label with
  | ok distance =>
      rw [found] at failed
      cases failed
  | error e =>
      rw [found] at failed
      cases failed
      rw [error_distance c layout offset label err found]
      rfl

theorem error_switch_bytes (offset : Nat) (op : Opcode) (otherwise : LabelId)
    (cases : List (Int32 × LabelId)) (err : EncodeError)
    (failed : c.switchBytes layout offset op otherwise cases = .error err) : err.isRefusal = true := by
  rcases (except_bind_error _ _ err).mp failed with first | ⟨default, _, failed⟩
  · exact error_relative c layout offset otherwise err first
  · split at failed
    · rcases (except_bind_error _ _ err).mp failed with entry | ⟨_, _, done⟩
      · obtain ⟨i, _, fault⟩ := except_map_m_error _ _ err entry
        exact error_relative c layout offset _ err fault
      · cases done
    · rcases (except_bind_error _ _ err).mp failed with entry | ⟨_, _, done⟩
      · obtain ⟨⟨key, label⟩, _, fault⟩ := except_map_m_error _ _ err entry
        rcases (except_bind_error _ _ err).mp fault with missing | ⟨_, _, done⟩
        · exact error_relative c layout offset label err missing
        · cases done
      · cases done

theorem distance_of_knows (offset : Nat) (label : LabelId) (known : c.Knows label) :
    ∃ distance, c.distance layout offset label = .ok distance := by
  obtain ⟨position, found⟩ := known
  exact ⟨_, by rw [Context.distance, Context.target, found]; rfl⟩

theorem jump_bytes_arithmetic_iff (offset : Nat) (isFar : Bool) (op : Opcode) (label : LabelId) :
    c.jumpBytes layout offset isFar op label = .error .arithmetic ↔
      isFar = true ∧ lacksOpposite op = true ∧ c.Knows label := by
  constructor
  · intro failed
    rcases (except_bind_error _ _ _).mp failed with missing | ⟨distance, found, failed⟩
    · cases error_distance c layout offset label _ missing
    · have known := knows_of_target c layout label _ (distance_place c layout offset label distance found).2
      split at failed
      · cases failed
      split at failed
      · cases failed
      rename_i far
      split at failed
      · cases failed
      split at failed
      · cases failed
      rcases (except_bind_error _ _ _).mp failed with odd | ⟨hop, _, done⟩
      · exact ⟨by simpa using far, ((inverted_error_iff op _).mp odd).1, known⟩
      · cases done
  · rintro ⟨rfl, odd, known⟩
    obtain ⟨distance, found⟩ := distance_of_knows c layout offset label known
    obtain ⟨notWide, notGoto, notJsr⟩ := lacks_opposite_plain op odd
    have none := (inverted_error_iff op .arithmetic).mpr ⟨odd, rfl⟩
    rw [Context.jumpBytes, found]
    simp [notWide, notGoto, notJsr, none, bind, Except.bind]

-- A far branch, to a label that is known, whose opposite is asked for and does not exist.
structure Stuck (isFar : Bool) (line : Line) (label : LabelId) : Prop where
  jump : line.operand = .jump label
  far : isFar = true
  odd : lacksOpposite line.opcode = true
  known : c.Knows label

theorem line_bytes_error [Libraries] (offset : Nat) (isFar : Bool) (line : Line) (err : EncodeError)
    (failed : c.lineBytes layout offset isFar line = .error err) :
    err.isRefusal = true ∨ err = .arithmetic := by
  obtain ⟨op, operand, index⟩ := line
  cases operand with
  | jump label =>
      rcases (except_bind_error _ _ _).mp failed with missing | ⟨distance, found, failed⟩
      · rw [error_distance c layout offset label err missing]
        exact .inl rfl
      · split at failed
        · cases failed
        split at failed
        · cases failed
        split at failed
        · cases failed
        split at failed
        · cases failed
        rcases (except_bind_error _ _ _).mp failed with odd | ⟨hop, _, done⟩
        · exact .inr ((inverted_error_iff op err).mp odd).2
        · cases done
  | switch otherwise cases =>
      exact .inl (error_switch_bytes c layout offset op otherwise cases err failed)
  | _ => cases failed

theorem line_bytes_arithmetic_iff [Libraries] (offset : Nat) (isFar : Bool) (line : Line) :
    c.lineBytes layout offset isFar line = .error .arithmetic ↔ ∃ label, Stuck c isFar line label := by
  obtain ⟨op, operand, index⟩ := line
  constructor
  · intro failed
    cases operand with
    | jump label =>
        obtain ⟨far, odd, known⟩ := (jump_bytes_arithmetic_iff c layout offset isFar op label).mp failed
        exact ⟨label, rfl, far, odd, known⟩
    | switch otherwise cases => cases error_switch_bytes c layout offset op otherwise cases _ failed
    | _ => cases failed
  · rintro ⟨label, jump, far, odd, known⟩
    cases jump
    exact (jump_bytes_arithmetic_iff c layout offset isFar op label).mpr ⟨far, odd, known⟩

-- The writing of lines from a position on fails at the first line that cannot be written.
structure FirstFault [Libraries] (position : Nat) (lines : List Line) (far : List Bool)
    (err : EncodeError) (k : Nat) (line : Line) (isFar : Bool) : Prop where
  here : lines[k]? = some line
  mark : far[k]? = some isFar
  fault : c.lineBytes layout (layout.offset (position + k)) isFar line = .error err
  before : ∀ j < k, ∀ (earlier : Line) (isFarEarlier : Bool), lines[j]? = some earlier →
    far[j]? = some isFarEarlier →
      ∃ bytes, c.lineBytes layout (layout.offset (position + j)) isFarEarlier earlier = .ok bytes

theorem FirstFault.cons [Libraries] {position : Nat} {line other : Line} {lines : List Line}
    {isFar isFarOther : Bool} {far : List Bool} {err : EncodeError} {k : Nat} {bytes : List UInt8}
    (first : c.lineBytes layout (layout.offset position) isFar line = .ok bytes)
    (later : FirstFault c layout (position + 1) lines far err k other isFarOther) :
    FirstFault c layout position (line :: lines) (isFar :: far) err (k + 1) other isFarOther := by
  have shift : ∀ j, position + 1 + j = position + (j + 1) := fun j => by omega
  refine ⟨later.here, later.mark, by rw [← shift]; exact later.fault, fun j less earlier _ there marked => ?_⟩
  cases j with
  | zero =>
      cases there
      cases marked
      exact ⟨bytes, first⟩
  | succ j =>
      rw [← shift]
      exact later.before j (by omega) earlier _ there marked

theorem emit_onto_fault [Libraries] (reversed : List (List UInt8)) (position : Nat) (lines : List Line)
    (far : List Bool) (err : EncodeError) (failed : c.emitOnto layout reversed position lines far = .error err) :
    ∃ k line isFar, FirstFault c layout position lines far err k line isFar := by
  induction lines generalizing reversed position far with
  | nil =>
      unfold Context.emitOnto at failed
      cases failed
  | cons line lines ih =>
      cases far with
      | nil =>
          unfold Context.emitOnto at failed
          cases failed
      | cons isFar far =>
          rcases (except_bind_error _ _ err).mp failed with fault | ⟨bytes, written, failed⟩
          · exact ⟨0, line, isFar, rfl, rfl, fault, fun j less => absurd less (Nat.not_lt_zero j)⟩
          · obtain ⟨k, other, isFarOther, later⟩ := ih _ (position + 1) far failed
            exact ⟨k + 1, other, isFarOther, later.cons c layout written⟩

theorem emit_onto_of_fault [Libraries] (reversed : List (List UInt8)) (position : Nat)
    (lines : List Line) (far : List Bool) (err : EncodeError) (k : Nat) (line : Line) (isFar : Bool)
    (first : FirstFault c layout position lines far err k line isFar) :
    c.emitOnto layout reversed position lines far = .error err := by
  induction lines generalizing reversed position far k with
  | nil => cases first.here
  | cons head lines ih =>
      cases far with
      | nil => cases first.mark
      | cons isFarHead far =>
          rw [Context.emitOnto, except_bind_error]
          cases k with
          | zero =>
              obtain ⟨here, mark, fault, _⟩ := first
              cases here
              cases mark
              exact .inl fault
          | succ k =>
              have shift : ∀ j, position + 1 + j = position + (j + 1) := fun j => by omega
              obtain ⟨bytes, written⟩ := first.before 0 (Nat.succ_pos k) head isFarHead rfl rfl
              refine .inr ⟨bytes, written, ih _ (position + 1) far k ⟨first.here, first.mark, ?_, ?_⟩⟩
              · rw [shift]
                exact first.fault
              · intro j less earlier isFarEarlier there marked
                rw [shift]
                exact first.before (j + 1) (by omega) earlier isFarEarlier there marked

theorem emit_error [Libraries] (lines : List Line) (err : EncodeError)
    (failed : c.emit layout lines = .error err) : err.isRefusal = true ∨ err = .arithmetic := by
  obtain ⟨k, line, isFar, first⟩ := emit_onto_fault c layout [] 0 lines layout.far err failed
  exact line_bytes_error c layout _ isFar line err first.fault

-- All lines before a position can be written, and the branch of the line there has no opposite.
structure StuckAt [Libraries] (lines : List Line) (position : Nat) (line : Line) (label : LabelId) :
    Prop where
  here : lines[position]? = some line
  stuck : ∃ isFar, layout.far[position]? = some isFar ∧ Stuck c isFar line label
  before : ∀ j < position, ∀ (earlier : Line) (isFar : Bool), lines[j]? = some earlier →
    layout.far[j]? = some isFar → ∃ bytes, c.lineBytes layout (layout.offset j) isFar earlier = .ok bytes

theorem emit_arithmetic_iff [Libraries] (lines : List Line) : c.emit layout lines = .error .arithmetic ↔
    ∃ position line label, StuckAt c layout lines position line label := by
  constructor
  · intro failed
    obtain ⟨k, line, isFar, first⟩ := emit_onto_fault c layout [] 0 lines layout.far _ failed
    obtain ⟨label, stuck⟩ := (line_bytes_arithmetic_iff c layout _ isFar line).mp first.fault
    refine ⟨k, line, label, first.here, ⟨isFar, first.mark, stuck⟩, ?_⟩
    simpa only [Nat.zero_add] using first.before
  · rintro ⟨position, line, label, here, ⟨isFar, mark, stuck⟩, before⟩
    refine emit_onto_of_fault c layout [] 0 lines layout.far _ position line isFar ⟨here, mark, ?_, ?_⟩
    · exact (line_bytes_arithmetic_iff c layout _ isFar line).mpr ⟨label, stuck⟩
    · simpa only [Nat.zero_add] using before

theorem length_emit_onto [Libraries] (all : List Line) (laid : LaidOut c all layout)
    (reversed : List (List UInt8))
    (position : Nat) (lines : List Line) (far : List Bool) (bytes : List UInt8)
    (isLines : all.drop position = lines) (isFar : layout.far.drop position = far)
    (inside : position ≤ all.length) (done : c.emitOnto layout reversed position lines far = .ok bytes) :
    layout.offset position + bytes.length =
      reversed.flatten.length + layout.length + (lines.map Line.uncounted).sum := by
  have remaining := laid.remaining position lines far isLines isFar inside
  clear isLines isFar inside
  induction remaining generalizing reversed with
  | stop =>
      unfold Context.emitOnto at done
      cases done
      rw [laid.stop]
      simp
      omega
  | line position line isFar lines far here mark _ ih =>
      obtain ⟨chunk, written, done⟩ := except_bind _ _ _ done
      have later := ih (chunk :: reversed) done
      have room := length_line_bytes c layout _ isFar line chunk written
      have step := laid.step position line isFar here mark
      rw [List.flatten_cons, List.length_append] at later
      rw [List.map_cons, List.sum_cons]
      omega

theorem length_emit [Libraries] (lines : List Line) (laid : LaidOut c lines layout) (bytes : List UInt8)
    (done : c.emit layout lines = .ok bytes) :
    bytes.length = layout.length + (lines.map Line.uncounted).sum := by
  have length := length_emit_onto c layout lines laid [] 0 lines layout.far bytes rfl rfl
    (Nat.zero_le _) done
  rw [laid.start, List.flatten_nil, List.length_nil] at length
  omega

end Emission

end Assembler

namespace ClassFile

open Assembler (Context Layout Line extent allShort StuckAt)

theorem local_attributes_error_iff (c : Context) (layout : Layout) (locals : List LocalVariable)
    (b : PoolBuilder) (err : EncodeError) (known : err.isRefusal = false) :
    localAttributes c layout locals b = .error err ↔
      err = .arithmetic ∧ ∃ v position, uncountable locals = some (v, position) ∧ ∃ rows mid row late,
        (locals.take position).mapM (localBytes c layout) b = .ok (rows, mid) ∧
        localBytes c layout { v with signature := none } mid = .ok (row, late) := by
  have refused : ∀ {α : Type} {e : Encoder α} {b}, Refusing e → e b ≠ .error err := by
    intro α e b refusing failed
    rw [refusing b err failed] at known
    cases known
  cases excess : uncountable locals with
  | none =>
      refine ⟨fun failed => absurd failed (refused ?_), fun ⟨_, _, _, found, _⟩ => by cases found⟩
      cases none : locals.isEmpty with
      | true =>
          rw [List.isEmpty_iff.mp none]
          exact .pure _
      | false =>
          rw [local_attributes_eq c layout locals none excess]
          refine (Refusing.map_m _ locals (Refusing.local_bytes c layout)).bind fun rows =>
            (Refusing.named _ _).bind fun table => ?_
          split
          · exact .pure _
          · exact (Refusing.named _ _).bind fun _ => .pure _
  | some found =>
      obtain ⟨v, position⟩ := found
      have rows := Refusing.map_m _ (locals.take position) (Refusing.local_bytes c layout)
      have row := Refusing.local_bytes c layout { v with signature := none }
      rw [local_attributes_uncountable c layout locals v position excess, state_t_bind_error]
      simp only [state_t_bind_error, refused rows, refused row, false_or]
      constructor
      · rintro ⟨before, mid, ran, last, late, ran', failed⟩
        cases failed
        exact ⟨rfl, v, position, rfl, before, mid, last, late, ran, ran'⟩
      · rintro ⟨rfl, _, _, same, before, mid, last, late, ran, ran'⟩
        cases same
        exact ⟨before, mid, ran, last, late, ran', rfl⟩

theorem code_bytes_error_iff [Libraries] (m : Method) (qualified : String) (b : PoolBuilder)
    (err : EncodeError) :
    codeBytes m qualified b = .error err ↔ Assembler.lines m.code.toList b = .error err ∨
      ∃ lines b₁, Assembler.lines m.code.toList b = .ok (lines, b₁) ∧
        ((codeContext m qualified).layout lines = .error err ∨
          ∃ layout, (codeContext m qualified).layout lines = .ok layout ∧
            ((codeContext m qualified).emit layout lines = .error err ∨
              ∃ code, (codeContext m qualified).emit layout lines = .ok code ∧
                (m.tryRanges.mapM (rangeBytes (codeContext m qualified) layout) b₁ = .error err ∨
                  ∃ rows b₂,
                    m.tryRanges.mapM (rangeBytes (codeContext m qualified) layout) b₁ = .ok (rows, b₂) ∧
                    localAttributes (codeContext m qualified) layout m.locals b₂ = .error err))) := by
  simp only [code_bytes_eq, state_t_bind_error, encoder_lift_error, encoder_lift_ok]
  constructor
  · rintro (ready | ⟨lines, b₁, ready, laid | ⟨layout, _, ⟨laid, rfl⟩, emitted | ⟨code, _, ⟨emitted, rfl⟩, ranges |
      ⟨rows, b₂, ranges, attributes | ⟨_, _, _, done⟩⟩⟩⟩⟩)
    · exact .inl ready
    · exact .inr ⟨lines, b₁, ready, .inl laid⟩
    · exact .inr ⟨lines, _, ready, .inr ⟨layout, laid, .inl emitted⟩⟩
    · exact .inr ⟨lines, _, ready, .inr ⟨layout, laid, .inr ⟨code, emitted, .inl ranges⟩⟩⟩
    · exact .inr ⟨lines, _, ready, .inr ⟨layout, laid, .inr ⟨code, emitted, .inr ⟨rows, b₂, ranges, attributes⟩⟩⟩⟩
    · cases done
  · rintro (ready | ⟨lines, b₁, ready, laid | ⟨layout, laid, emitted | ⟨code, emitted, ranges |
      ⟨rows, b₂, ranges, attributes⟩⟩⟩⟩)
    · exact .inl ready
    · exact .inr ⟨lines, b₁, ready, .inl laid⟩
    · exact .inr ⟨lines, b₁, ready, .inr ⟨layout, b₁, ⟨laid, rfl⟩, .inl emitted⟩⟩
    · exact .inr ⟨lines, b₁, ready, .inr ⟨layout, b₁, ⟨laid, rfl⟩, .inr ⟨code, b₁, ⟨emitted, rfl⟩, .inl ranges⟩⟩⟩
    · exact .inr ⟨lines, b₁, ready, .inr ⟨layout, b₁, ⟨laid, rfl⟩, .inr ⟨code, b₁, ⟨emitted, rfl⟩,
        .inr ⟨rows, b₂, ranges, .inl attributes⟩⟩⟩⟩

-- The ways in which the arithmetic of a body leaves the machine words that hold it.
inductive Overflows [Libraries] (m : Method) (qualified : String) (b : PoolBuilder) : Prop
  -- Lines with short branches whose sizes do not add up in four bytes.
  | sizes (lines : List Line) (b₁ : PoolBuilder)
      (ready : Assembler.lines m.code.toList b = .ok (lines, b₁))
      (huge : UInt32.size ≤ extent 0 lines (allShort lines))
  -- A far branch without an opposite.
  | branch (lines : List Line) (b₁ : PoolBuilder) (layout : Layout) (position : Nat) (line : Line)
      (label : LabelId) (ready : Assembler.lines m.code.toList b = .ok (lines, b₁))
      (laid : (codeContext m qualified).layout lines = .ok layout)
      (stuck : StuckAt (codeContext m qualified) layout lines position line label)
  -- Local variables with more signatures than two bytes count.
  | signatures (lines : List Line) (b₁ b₂ b₃ b₄ : PoolBuilder) (layout : Layout) (code : List UInt8)
      (ranges : List (List (List UInt8))) (v : LocalVariable) (position : Nat)
      (rows : List (List UInt8 × Option (List UInt8))) (row : List UInt8 × Option (List UInt8))
      (ready : Assembler.lines m.code.toList b = .ok (lines, b₁))
      (laid : (codeContext m qualified).layout lines = .ok layout)
      (emitted : (codeContext m qualified).emit layout lines = .ok code)
      (ranged : m.tryRanges.mapM (rangeBytes (codeContext m qualified) layout) b₁ = .ok (ranges, b₂))
      (excess : uncountable m.locals = some (v, position))
      (before : (m.locals.take position).mapM (localBytes (codeContext m qualified) layout) b₂ =
        .ok (rows, b₃))
      (last : localBytes (codeContext m qualified) layout { v with signature := none } b₃ = .ok (row, b₄))

theorem code_bytes_arithmetic_iff [Libraries] (m : Method) (qualified : String) (b : PoolBuilder) :
    codeBytes m qualified b = .error .arithmetic ↔ Overflows m qualified b := by
  rw [code_bytes_error_iff]
  constructor
  · rintro (ready | ⟨lines, b₁, ready, laid | ⟨layout, laid, emitted | ⟨code, emitted, ranged |
      ⟨ranges, b₂, ranged, attributes⟩⟩⟩⟩)
    · cases Refusing.lines_onto [] m.code.toList b _ ready
    · exact .sizes lines b₁ ready ((Assembler.layout_arithmetic_iff _ lines).mp laid)
    · obtain ⟨position, line, label, stuck⟩ := (Assembler.emit_arithmetic_iff _ layout lines).mp emitted
      exact .branch lines b₁ layout position line label ready laid stuck
    · cases Refusing.map_m _ _ (Refusing.range_bytes _ layout) b₁ _ ranged
    · obtain ⟨_, v, position, excess, rows, b₃, row, b₄, before, last⟩ :=
        (local_attributes_error_iff _ layout m.locals b₂ .arithmetic rfl).mp attributes
      exact .signatures lines b₁ b₂ b₃ b₄ layout code ranges v position rows row ready laid emitted ranged
        excess before last
  · intro overflows
    cases overflows with
    | sizes lines b₁ ready huge =>
        exact .inr ⟨lines, b₁, ready, .inl ((Assembler.layout_arithmetic_iff _ lines).mpr huge)⟩
    | branch lines b₁ layout position line label ready laid stuck =>
        exact .inr ⟨lines, b₁, ready, .inr ⟨layout, laid, .inl
          ((Assembler.emit_arithmetic_iff _ layout lines).mpr ⟨position, line, label, stuck⟩)⟩⟩
    | signatures lines b₁ b₂ b₃ b₄ layout code ranges v position rows row ready laid emitted ranged excess
        before last =>
        exact .inr ⟨lines, b₁, ready, .inr ⟨layout, laid, .inr ⟨code, emitted, .inr ⟨ranges, b₂, ranged,
          (local_attributes_error_iff _ layout m.locals b₂ .arithmetic rfl).mpr
            ⟨rfl, v, position, excess, rows, b₃, row, b₄, before, last⟩⟩⟩⟩⟩

theorem code_bytes_code_too_large_iff [Libraries] (m : Method) (qualified name : String)
    (b : PoolBuilder) :
    codeBytes m qualified b = .error (.codeTooLarge name) ↔ name = qualified ∧ ∃ lines b₁,
      Assembler.lines m.code.toList b = .ok (lines, b₁) ∧ extent 0 lines (allShort lines) < UInt32.size ∧
      ∃ far, (codeContext m qualified).Reaches lines far ∧ 65535 < extent 0 lines far := by
  rw [code_bytes_error_iff]
  constructor
  · rintro (ready | ⟨lines, b₁, ready, laid | ⟨layout, laid, emitted | ⟨code, emitted, ranged |
      ⟨ranges, b₂, ranged, attributes⟩⟩⟩⟩)
    · cases Refusing.lines_onto [] m.code.toList b _ ready
    · obtain ⟨same, rest⟩ := (Assembler.layout_code_too_large_iff _ lines name).mp laid
      exact ⟨same, lines, b₁, ready, rest⟩
    · rcases Assembler.emit_error _ layout lines _ emitted with refused | same
      · cases refused
      · cases same
    · cases Refusing.map_m _ _ (Refusing.range_bytes _ layout) b₁ _ ranged
    · cases ((local_attributes_error_iff _ layout m.locals b₂ _ rfl).mp attributes).1
  · rintro ⟨same, lines, b₁, ready, rest⟩
    exact .inr ⟨lines, b₁, ready, .inl ((Assembler.layout_code_too_large_iff _ lines name).mpr ⟨same, rest⟩)⟩

-- A body that is written has the code that its layout announces, which is short enough, and what a
-- table over all keys adds. It is refused as too long exactly if its lines come to too much in some
-- round, as long as their sizes add up in a machine word at all; apart from refusals by the pool and
-- unknown labels, all that is left is that the arithmetic overflows, in one of three ways.
theorem code_bytes_sized [Libraries] (m : Method) (qualified : String) (b : PoolBuilder) :
    (∀ bytes b', codeBytes m qualified b = .ok (bytes, b') → ∃ lines b₁ layout code rest,
      Assembler.lines m.code.toList b = .ok (lines, b₁) ∧
      (codeContext m qualified).layout lines = .ok layout ∧
      (codeContext m qualified).emit layout lines = .ok code ∧ layout.length ≤ 65535 ∧
      code.length = layout.length + (lines.map Line.uncounted).sum ∧
      bytes = Bytes.u16 (maxStack m) ++ Bytes.u16 (maxLocals m) ++ Bytes.count32 code.length ++ code ++ rest) ∧
    (∀ name, codeBytes m qualified b = .error (.codeTooLarge name) ↔ name = qualified ∧ ∃ lines b₁,
      Assembler.lines m.code.toList b = .ok (lines, b₁) ∧ extent 0 lines (allShort lines) < UInt32.size ∧
      ∃ far, (codeContext m qualified).Reaches lines far ∧ 65535 < extent 0 lines far) ∧
    (codeBytes m qualified b = .error .arithmetic ↔ Overflows m qualified b) := by
  refine ⟨fun bytes b' done => ?_, fun name => code_bytes_code_too_large_iff m qualified name b,
    code_bytes_arithmetic_iff m qualified b⟩
  obtain ⟨lines, b₁, layout, code, rows, b₂, attributes, ready, laid, emitted, _, _, isBytes⟩ :=
    code_bytes_parts m qualified b b' bytes done
  have facts := Assembler.laid_out_layout _ lines layout laid
  refine ⟨lines, b₁, layout, code,
    Bytes.count16 rows.flatten.length ++ rows.flatten.flatten ++ attributeBytes attributes, ready, laid,
    emitted, facts.bound, Assembler.length_emit _ layout lines facts code emitted, ?_⟩
  rw [isBytes]
  simp only [List.append_assoc]

-- A wide branch in front of a table over the keys between two. Label 1 does not stand in the code.
def keyTable (low high : Int32) (target : LabelId) : Method where
  owner := ⟨0⟩
  name := "m"
  descriptor := "(I)V"
  signature := none
  access := ⟨8⟩
  kind := .method
  exceptions := []
  annotations := []
  code := ⟨[⟨⟨0⟩, Opcode.gotoW, .jump target⟩,
    ⟨⟨1⟩, Opcode.tableSwitch, .switch ⟨0⟩ [(low, ⟨0⟩), (high, ⟨0⟩)]⟩,
    ⟨⟨2⟩, Opcode.label, .label ⟨0⟩⟩, ⟨⟨3⟩, 0xb1, .simple⟩]⟩

theorem code_bytes_sized_key_table :
    (∃ lines b₁ layout code rest,
      Assembler.lines (keyTable 0 1 ⟨0⟩).code.toList {} = .ok (lines, b₁) ∧
      (codeContext (keyTable 0 1 ⟨0⟩) "A.m(I)V").layout lines = .ok layout ∧
      (codeContext (keyTable 0 1 ⟨0⟩) "A.m(I)V").emit layout lines = .ok code ∧ layout.length ≤ 65535 ∧
      code.length = layout.length + (lines.map Line.uncounted).sum ∧
      (codeBytes (keyTable 0 1 ⟨0⟩) "A.m(I)V" {}).toOption.map Prod.fst = some
        (Bytes.u16 (maxStack (keyTable 0 1 ⟨0⟩)) ++ Bytes.u16 (maxLocals (keyTable 0 1 ⟨0⟩)) ++
          Bytes.count32 code.length ++ code ++ rest)) ∧
    (∃ lines b₁, Assembler.lines (keyTable 0 20000 ⟨1⟩).code.toList {} = .ok (lines, b₁) ∧
      extent 0 lines (allShort lines) < UInt32.size ∧
      ∃ far, (codeContext (keyTable 0 20000 ⟨1⟩) "A.m(I)V").Reaches lines far ∧ 65535 < extent 0 lines far) ∧
    Overflows (keyTable 0 1073741823 ⟨1⟩) "A.m(I)V" {} := by
  refine ⟨?_, ?_, ?_⟩
  · obtain ⟨result, written⟩ := except_ok (codeBytes (keyTable 0 1 ⟨0⟩) "A.m(I)V" {}) (by decide +kernel)
    obtain ⟨lines, b₁, layout, code, rest, ready, laid, emitted, bound, length, bytes⟩ :=
      (code_bytes_sized (keyTable 0 1 ⟨0⟩) "A.m(I)V" {}).1 result.1 result.2 written
    rw [written]
    exact ⟨lines, b₁, layout, code, rest, ready, laid, emitted, bound, length, congrArg some bytes⟩
  · exact (((code_bytes_sized (keyTable 0 20000 ⟨1⟩) "A.m(I)V" {}).2.1 "A.m(I)V").mp rfl).2
  · exact (code_bytes_sized (keyTable 0 1073741823 ⟨1⟩) "A.m(I)V" {}).2.2.mp rfl

-- Both tables are far longer than any code. The sizes of the first leave their machine word, and of the
-- second, over all keys there are, only the wide branch is found to be wrong.
theorem key_table_not_too_large : codeBytes (keyTable 0 1073741823 ⟨1⟩) "A.m(I)V" {} = .error .arithmetic ∧
    codeBytes (keyTable (-2147483648) 2147483647 ⟨1⟩) "A.m(I)V" {} =
      .error (.unknownLabel "A.m(I)V" ⟨1⟩) := ⟨rfl, rfl⟩

end ClassFile

end JvmEdit
