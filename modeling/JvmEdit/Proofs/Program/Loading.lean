import JvmEdit.Proofs.Index.Session
set_option autoImplicit false

namespace JvmEdit

-- New entities hold nothing yet: members and bodies come later, and records come with binding. The
-- locals of a body come with their uses.
inductive LoadStep (fits : Stream → Prop) (p : Program) : Program → Prop
  | advance (count : Nat) : LoadStep fits p (p.advance count)
  | enter (c : Class) (free : p.findClass? c.name = none) (fields : c.fields = [])
      (methods : c.methods = []) (unread : c.typeReferences = .empty) :
      LoadStep fits p ((p.advance 1).enter ⟨p.nextId⟩ c)
  | placeField (owner : ClassId) (name : String) (f : Field) (live : p.className? owner = some name)
      (only : ∀ other, p.findFieldKey? (Key.field name f.name) = some other → other = ⟨p.nextId⟩)
      (unread : f.references = .empty) :
      LoadStep fits p ((p.advance 1).placeField ⟨p.nextId⟩ owner (Key.field name f.name) f)
  | placeMethod (owner : ClassId) (name : String) (m : Method) (live : p.className? owner = some name)
      (only : ∀ other, p.findMethodKey? (Key.method name m.name m.descriptor) = some other →
        other = ⟨p.nextId⟩)
      (code : m.code = .empty) (locals : m.locals = []) (unread : m.invocations = .empty) :
      LoadStep fits p
        ((p.advance 1).placeMethod ⟨p.nextId⟩ owner (Key.method name m.name m.descriptor) m)
  | fill (id : MethodId) (code : Stream) (tryRanges : List TryRange) (locals : List LocalVariable)
      (fitting : fits code) :
      LoadStep fits p (p.updateMethod id fun m =>
        { m with code, tryRanges, locals := locals.map (LocalVariable.collect code) })
  | limit (id : MethodId) (maxStack maxLocals : Option UInt16) :
      LoadStep fits p (p.updateMethod id fun m => { m with maxStack, maxLocals })

namespace Builder

section Steps

variable (fits : Stream → Prop) (holds : Program → Prop)
  (kept : ∀ p q, LoadStep fits p q → holds p → holds q) (b : Builder)

include kept

theorem flush_induct (fitting : fits ⟨b.body.code.reverse⟩) (start : holds b.program) :
    holds b.flush.program := by
  simp only [flush]
  split
  · exact start
  · exact kept b.program _ (.fill _ _ _ _ fitting) start

theorem enter_class_induct (h : ClassHeader) (start : holds b.program) :
    holds (b.enterClass h).program := by
  rcases b.enter_class_cases h with same | ⟨c, _, free, noFields, noMethods, unread, entered⟩
  · exact same ▸ kept b.program _ (.advance 1) start
  · exact entered ▸ kept b.program _ (.enter c free noFields noMethods unread) start

theorem enter_field_induct (d : FieldDecl) (start : holds b.program) :
    holds (b.enterField d).program := by
  unfold enterField
  split
  · exact start
  · dsimp only
    split
    · rename_i done
      obtain ⟨name, live, only, rfl⟩ := Program.attach_field_ok _ _ _ _ _ done
      exact kept b.program _ (.placeField _ name _ live only rfl) start
    · exact kept b.program _ (.advance 1) start

theorem enter_method_induct (d : MethodDecl) (start : holds b.program) :
    holds (b.enterMethod d).program := by
  unfold enterMethod
  split
  · exact start
  · dsimp only
    split
    · rename_i done
      obtain ⟨name, live, only, rfl⟩ := Program.attach_method_ok _ _ _ _ _ done
      exact kept b.program _ (.placeMethod _ name _ live only rfl rfl rfl) start
    · exact kept b.program _ (.advance 1) start

theorem step_induct (event : ClassEvent) (fitting : fits ⟨b.body.code.reverse⟩)
    (start : holds b.program) : holds (b.step event).program := by
  have flushed := flush_induct fits holds kept b fitting start
  cases event with
  | header h => exact enter_class_induct fits holds kept b.flush h flushed
  | field d => exact enter_field_induct fits holds kept b d start
  | method d => exact enter_method_induct fits holds kept { b.flush with labels := #[] } d flushed
  | newLabel => exact kept b.program _ (.advance 2) start
  | instruction opcode operand =>
      change holds (b.addInstruction opcode operand).program
      simp only [addInstruction]
      split
      · exact start
      · exact kept b.program _ (.advance 1) start
  | tryRange d =>
      change holds (b.addTryRange d).program
      simp only [addTryRange]
      split <;> exact start
  | localVariable d =>
      change holds (b.addLocal d).program
      simp only [addLocal]
      split <;> exact start
  | methodEnd maxStack maxLocals =>
      change holds (b.endMethod maxStack maxLocals).program
      simp only [endMethod]
      split
      · exact start
      · exact flush_induct fits holds kept _ fitting
          (kept b.program _ (.limit _ maxStack maxLocals) start)
  | classEnd => exact flushed

end Steps

end Builder

end JvmEdit
