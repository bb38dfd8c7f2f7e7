import JvmEdit.Proofs.ClassFile.Labels
import JvmEdit.Proofs.ClassFile.Lines
set_option autoImplicit false

namespace JvmEdit

namespace Code

-- What a file may hold and a writer could not repeat.
structure Repeatable (operand : Operand) : Prop where
  direct : ∀ value, operand = .constant value → value.Direct
  short : ∀ otherwise cases, operand = .switch otherwise cases → Assembler.keySpan cases < 2 ^ 30

theorem shaped_late (pool : Pool) (op : Opcode) (c c' : Cursor) (operand : Operand)
    (plain : isPlain op = true) (late : isLate op = true)
    (read : readOperand pool op c = .ok (operand, c')) : Shaped op operand := by
  rw [read_operand_late pool op late] at read
  by_cases field : isFieldAccess op = true
  · rw [if_pos field] at read
    obtain ⟨index, c₁, _, read⟩ := state_t_bind _ _ c c' operand read
    obtain ⟨m, c₂, _, read⟩ := state_t_bind _ _ c₁ c' operand read
    cases read
    exact ⟨field, rfl, rfl⟩
  rw [if_neg field] at read
  by_cases call : isCall op = true
  · rw [if_pos call] at read
    obtain ⟨index, c₁, _, read⟩ := state_t_bind _ _ c c' operand read
    obtain ⟨m, c₂, _, read⟩ := state_t_bind _ _ c₁ c' operand read
    by_cases isInterface : op = Opcode.invokeInterface
    · rw [if_pos isInterface] at read
      obtain ⟨_, c₃, _, read⟩ := state_t_bind _ _ c₂ c' operand read
      cases read
      exact ⟨call, rfl⟩
    · rw [if_neg isInterface] at read
      cases read
      exact ⟨call, rfl⟩
  rw [if_neg call] at read
  by_cases dynamic : op = Opcode.invokeDynamic
  · rw [if_pos dynamic] at read
    obtain ⟨index, c₁, _, read⟩ := state_t_bind _ _ c c' operand read
    obtain ⟨call, c₂, _, read⟩ := state_t_bind _ _ c₁ c' operand read
    obtain ⟨_, c₃, _, read⟩ := state_t_bind _ _ c₂ c' operand read
    cases read
    exact dynamic
  rw [if_neg dynamic] at read
  by_cases typed : isTyped op = true
  · rw [if_pos typed] at read
    obtain ⟨index, c₁, _, read⟩ := state_t_bind _ _ c c' operand read
    obtain ⟨name, c₂, _, read⟩ := state_t_bind _ _ c₁ c' operand read
    cases read
    exact typed
  rw [if_neg typed] at read
  by_cases newArray : op = Opcode.newArray
  · rw [if_pos newArray] at read
    obtain ⟨code, c₁, _, read⟩ := state_t_bind _ _ c c' operand read
    cases read
    exact newArray
  rw [if_neg newArray] at read
  by_cases multi : op = Opcode.newMultiArray
  · rw [if_pos multi] at read
    obtain ⟨index, c₁, _, read⟩ := state_t_bind _ _ c c' operand read
    obtain ⟨name, c₂, _, read⟩ := state_t_bind _ _ c₁ c' operand read
    obtain ⟨dimensions, c₃, _, read⟩ := state_t_bind _ _ c₂ c' operand read
    cases read
    exact multi
  rw [if_neg multi] at read
  cases read
  have rest := Opcode.forall_of_all (fun op => !isPlain op || !isLate op || isFieldAccess op ||
    isCall op || op = Opcode.invokeDynamic || isTyped op || op = Opcode.newArray ||
    op = Opcode.newMultiArray || isSimple op) (by decide +kernel) op
  have simple : isSimple op = true := by
    simpa [plain, late, field, call, dynamic, typed, newArray, multi] using rest
  exact simple

-- The codes below the branches that `readOperand` reads nothing behind.
def isArithmetic (op : Opcode) : Bool :=
  op < Opcode.ifEq && !(op ≤ Opcode.dconst1) && op ≠ Opcode.bipush && op ≠ Opcode.sipush &&
    op ≠ Opcode.ldc && !(op = Opcode.ldcW || op = Opcode.ldc2W) && !takesSlot op && op ≠ Opcode.iinc

theorem simple_of (op : Opcode)
    (kind : (op ≤ Opcode.dconst1 || isArithmetic op || op.isReturn) = true) : isSimple op = true := by
  have fact := Opcode.forall_of_all
    (fun op => !(op ≤ Opcode.dconst1 || isArithmetic op || op.isReturn) || isSimple op)
    (by decide +kernel) op
  simpa only [kind, Bool.not_true, Bool.false_or] using fact

theorem shaped_read_operand (pool : Pool) (op : Opcode) (c c' : Cursor) (operand : Operand)
    (plain : isPlain op = true) (read : readOperand pool op c = .ok (operand, c'))
    (repeatable : Repeatable operand) : Shaped op operand := by
  by_cases late : isLate op = true
  · exact shaped_late pool op c c' operand plain late read
  simp only [readOperand] at read
  by_cases constant : op ≤ Opcode.dconst1
  · rw [if_pos constant] at read
    cases read
    exact simple_of op (by simp [constant])
  rw [if_neg constant] at read
  by_cases bipush : op = Opcode.bipush
  · rw [if_pos bipush] at read
    obtain ⟨value, c₁, _, read⟩ := state_t_bind _ _ c c' operand read
    cases read
    have least := value.le_toInt
    have most := value.toInt_lt
    exact Or.inl ⟨bipush, by rw [Int8.toInt_toInt32]; omega, by rw [Int8.toInt_toInt32]; omega⟩
  rw [if_neg bipush] at read
  by_cases sipush : op = Opcode.sipush
  · rw [if_pos sipush] at read
    obtain ⟨value, c₁, _, read⟩ := state_t_bind _ _ c c' operand read
    cases read
    have least := value.le_toInt
    have most := value.toInt_lt
    exact Or.inr ⟨sipush, by rw [Int16.toInt_toInt32]; omega, by rw [Int16.toInt_toInt32]; omega⟩
  rw [if_neg sipush] at read
  by_cases ldc : op = Opcode.ldc
  · rw [if_pos ldc] at read
    obtain ⟨index, c₁, _, read⟩ := state_t_bind _ _ c c' operand read
    obtain ⟨value, c₂, _, read⟩ := state_t_bind _ _ c₁ c' operand read
    cases read
    exact ⟨Or.inl ldc, repeatable.direct value rfl⟩
  rw [if_neg ldc] at read
  by_cases wideLdc : (op = Opcode.ldcW || op = Opcode.ldc2W) = true
  · rw [if_pos wideLdc] at read
    obtain ⟨index, c₁, _, read⟩ := state_t_bind _ _ c c' operand read
    obtain ⟨value, c₂, _, read⟩ := state_t_bind _ _ c₁ c' operand read
    cases read
    simp only [Bool.or_eq_true, decide_eq_true_eq] at wideLdc
    exact ⟨Or.inr wideLdc, repeatable.direct value rfl⟩
  rw [if_neg wideLdc] at read
  by_cases slot : takesSlot op = true
  · rw [if_pos slot] at read
    obtain ⟨index, c₁, _, read⟩ := state_t_bind _ _ c c' operand read
    cases read
    exact slot
  rw [if_neg slot] at read
  by_cases iinc : op = Opcode.iinc
  · rw [if_pos iinc] at read
    obtain ⟨index, c₁, _, read⟩ := state_t_bind _ _ c c' operand read
    obtain ⟨delta, c₂, _, read⟩ := state_t_bind _ _ c₁ c' operand read
    cases read
    exact iinc
  rw [if_neg iinc] at read
  by_cases arithmetic : op < Opcode.ifEq
  · rw [if_pos arithmetic] at read
    cases read
    have kind : isArithmetic op = true := by
      simpa [isArithmetic, arithmetic, constant, bipush, sipush, ldc, slot, iinc] using wideLdc
    exact simple_of op (by simp [kind])
  rw [if_neg arithmetic] at read
  by_cases returns : op.isReturn = true
  · rw [if_pos returns] at read
    cases read
    exact simple_of op (by simp [returns])
  exact absurd (by simp [isLate, constant, bipush, sipush, ldc, wideLdc, slot, iinc, arithmetic, returns]) late

theorem length_times_onto {α : Type} (reader : Reader α) (reversed values : List α) (count : Nat)
    (c c' : Cursor) (read : Reader.timesOnto reader reversed count c = .ok (values, c')) :
    values.length = reversed.length + count := by
  induction count generalizing reversed c with
  | zero =>
      cases read
      rw [List.length_reverse]
      rfl
  | succ count ih =>
      obtain ⟨value, c₁, _, later⟩ := state_t_bind _ _ c c' values read
      rw [ih _ _ later, List.length_cons]
      omega

theorem cases_read_table_switch (offset : Nat) (c c' : Cursor) (operand : RawOperand)
    (read : readTableSwitch offset c = .ok (operand, c')) :
    ∃ otherwise cases, operand = .switch otherwise cases ∧ cases ≠ [] := by
  obtain ⟨_, c₁, _, afterPadding⟩ := state_t_bind _ _ c c' operand read
  obtain ⟨otherwise, c₂, _, afterDefault⟩ := state_t_bind _ _ c₁ c' operand afterPadding
  obtain ⟨low, c₃, _, afterLow⟩ := state_t_bind _ _ c₂ c' operand afterDefault
  obtain ⟨high, c₄, _, afterHigh⟩ := state_t_bind _ _ c₃ c' operand afterLow
  by_cases empty : high < low
  · rw [if_pos empty] at afterHigh
    cases afterHigh
  · rw [if_neg empty] at afterHigh
    obtain ⟨targets, c₅, isTargets, last⟩ := state_t_bind _ _ c₄ c' operand afterHigh
    cases last
    have length := length_times_onto _ _ _ _ _ _ isTargets
    have ordered : low.toInt ≤ high.toInt := by
      rw [Int32.lt_iff_toInt_lt] at empty
      omega
    refine ⟨otherwise, _, rfl, fun none => ?_⟩
    rw [List.mapIdx_eq_nil_iff.mp none, List.length_nil] at length
    omega

theorem shaped_read_instruction (pool : Pool) (c c' : Cursor) (i : RawInstruction)
    (read : readInstruction pool c = .ok (i, c')) (f : Nat → LabelId)
    (repeatable : Repeatable (i.operand.aimed f)) : Shaped i.opcode (i.operand.aimed f) := by
  obtain ⟨offset, c₁, _, read⟩ := state_t_bind _ _ c c' i read
  obtain ⟨op, c₂, _, read⟩ := state_t_bind _ _ c₁ c' i read
  by_cases short : isShortBranch op = true
  · rw [if_pos short] at read
    obtain ⟨distance, c₃, _, read⟩ := state_t_bind _ _ c₂ c' i read
    obtain ⟨target, c₄, _, read⟩ := state_t_bind _ _ c₃ c' i read
    cases read
    exact Or.inl short
  rw [if_neg short] at read
  by_cases far : (op = Opcode.gotoW || op = Opcode.jsrW) = true
  · rw [if_pos far] at read
    obtain ⟨target, c₃, _, read⟩ := state_t_bind _ _ c₂ c' i read
    cases read
    exact Or.inr far
  rw [if_neg far] at read
  by_cases isTable : op = Opcode.tableSwitch
  · rw [if_pos isTable] at read
    obtain ⟨operand, c₃, isOperand, read⟩ := state_t_bind _ _ c₂ c' i read
    cases read
    obtain ⟨otherwise, cases, rfl, some⟩ := cases_read_table_switch offset c₂ _ operand isOperand
    refine Or.inr ⟨isTable, ?_, repeatable.short _ _ rfl⟩
    rwa [ne_eq, List.map_eq_nil_iff]
  rw [if_neg isTable] at read
  by_cases isLookup : op = Opcode.lookupSwitch
  · rw [if_pos isLookup] at read
    obtain ⟨operand, c₃, isOperand, read⟩ := state_t_bind _ _ c₂ c' i read
    cases read
    obtain ⟨_, c₄, _, afterPadding⟩ := state_t_bind _ _ c₂ _ operand isOperand
    obtain ⟨otherwise, c₅, _, afterDefault⟩ := state_t_bind _ _ c₄ _ operand afterPadding
    obtain ⟨count, c₆, _, afterCount⟩ := state_t_bind _ _ c₅ _ operand afterDefault
    obtain ⟨cases, c₇, _, last⟩ := state_t_bind _ _ c₆ _ operand afterCount
    cases last
    exact Or.inl isLookup
  rw [if_neg isLookup] at read
  by_cases isWide : op = Opcode.wide
  · rw [if_pos isWide] at read
    obtain ⟨⟨inner, operand⟩, c₃, isOperand, read⟩ := state_t_bind _ _ c₂ c' i read
    cases read
    obtain ⟨code, c₄, _, afterCode⟩ := state_t_bind _ _ c₂ _ _ isOperand
    obtain ⟨slot, c₅, _, afterSlot⟩ := state_t_bind _ _ c₄ _ _ afterCode
    by_cases iinc : code = Opcode.iinc
    · rw [if_pos iinc] at afterSlot
      obtain ⟨delta, c₆, _, last⟩ := state_t_bind _ _ c₅ _ _ afterSlot
      cases last
      exact iinc
    · rw [if_neg iinc] at afterSlot
      by_cases slotted : takesSlot code = true
      · rw [if_pos slotted] at afterSlot
        cases afterSlot
        exact slotted
      · rw [if_neg slotted] at afterSlot
        cases afterSlot
  rw [if_neg isWide] at read
  by_cases valid : op.isValid = true
  · rw [if_pos valid] at read
    obtain ⟨operand, c₃, isOperand, read⟩ := state_t_bind _ _ c₂ c' i read
    cases read
    have plain : isPlain op = true := by
      simp only [Bool.or_eq_true, decide_eq_true_eq, not_or] at far
      simp [isPlain, Assembler.isWideBranch, Opcode.isSwitch, valid, short, far.1, far.2, isTable,
        isLookup, isWide]
    exact shaped_read_operand pool op c₂ _ operand plain isOperand repeatable
  · rw [if_neg valid] at read
    cases read

theorem mem_read_onto (pool : Pool) (fuel : Nat) (reversed is : List RawInstruction) (c c' : Cursor)
    (read : readOnto pool fuel reversed c = .ok (is, c')) (i : RawInstruction) (member : i ∈ is) :
    i ∈ reversed ∨ ∃ before after, readInstruction pool before = .ok (i, after) := by
  induction fuel generalizing reversed c with
  | zero =>
      cases read
      exact Or.inl (List.mem_reverse.mp member)
  | succ fuel ih =>
      obtain ⟨atEnd, c₁, _, afterEnd⟩ := state_t_bind _ _ c c' is read
      cases atEnd with
      | true =>
          cases afterEnd
          exact Or.inl (List.mem_reverse.mp member)
      | false =>
          rw [if_neg Bool.false_ne_true] at afterEnd
          obtain ⟨j, c₂, isRead, later⟩ := state_t_bind _ _ c₁ c' is afterEnd
          rcases ih _ _ later with before | found
          · rcases List.mem_cons.mp before with rfl | before
            · exact Or.inr ⟨c₁, c₂, isRead⟩
            · exact Or.inl before
          · exact Or.inr found

theorem mem_read_instructions (pool : Pool) (bytes : List UInt8) (is : List RawInstruction)
    (read : readInstructions pool bytes = .ok is) (i : RawInstruction) (member : i ∈ is) :
    ∃ before after, readInstruction pool before = .ok (i, after) := by
  obtain ⟨⟨_, last⟩, ran, rfl⟩ := except_map _ _ _ read
  rcases mem_read_onto pool _ _ _ _ last ran i member with none | found
  · cases none
  · exact found

theorem shaped_decode (bytes : List UInt8) (pool : Pool) (ranges : List RawRange)
    (locals : List RawLocal) (body : Body) (decoded : decode bytes pool ranges locals = .ok body)
    (i : Opcode × Operand) (member : i ∈ body.instructions) (repeatable : Repeatable i.2) :
    Shaped i.1 i.2 := by
  obtain ⟨is, read, decoded⟩ := except_bind _ _ _ decoded
  dsimp only at decoded
  split at decoded
  · cases decoded
  · cases decoded
    have marker : ∀ (labels : LabelMap) (o : Nat), i ∈ labels.marker o → Shaped i.1 i.2 := by
      intro labels o isMarker
      simp only [LabelMap.marker] at isMarker
      split at isMarker
      · cases List.mem_singleton.mp isMarker
        exact rfl
      · cases isMarker
    rcases List.mem_append.mp member with inside | atEnd
    · obtain ⟨raw, isRaw, inside⟩ := List.mem_flatMap.mp inside
      rcases List.mem_append.mp inside with isMarker | isInstruction
      · exact marker _ _ isMarker
      · cases List.mem_singleton.mp isInstruction
        obtain ⟨before, after, isRead⟩ := mem_read_instructions pool bytes is read raw isRaw
        rw [RawOperand.operand_aimed] at repeatable ⊢
        exact shaped_read_instruction pool before after raw isRead _ repeatable
    · exact marker _ _ atEnd

end Code

end JvmEdit
