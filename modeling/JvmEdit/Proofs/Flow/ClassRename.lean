import JvmEdit.Libraries.Standard
import JvmEdit.Proofs.Descriptor.Strict
import JvmEdit.Proofs.Flow.Derived
set_option autoImplicit false

namespace JvmEdit

namespace Renaming

variable [Libraries] (r : Renaming)
  (slots : ∀ d, Descriptor.methodSlots? (r.descriptor d) = Descriptor.methodSlots? d)

include slots

theorem alike_instruction (i : Instruction) : i.Alike r.descriptor (r.instruction i) := by
  obtain ⟨insn, opcode, operand⟩ := i
  constructor
  · cases operand <;> rfl
  · cases operand with
    | constant value =>
        have pushed := r.slots_constant value
        simp only [instruction, operand, Flow.effect, pushed]
        rfl
    | field use =>
        have moved := r.field_slots_descriptor use.descriptor
        simp only [instruction, operand, Flow.effect, moved]
        rfl
    | call call =>
        simp only [instruction, operand, Flow.effect, slots]
        cases Descriptor.methodSlots? call.descriptor <;> rfl
    | dynamicCall call =>
        simp only [instruction, operand, Flow.effect, slots]
        cases Descriptor.methodSlots? call.descriptor <;> rfl
    | _ => rfl

theorem alike_method_text (m : Method) : m.Alike r.descriptor (r.methodText m) where
  code := List.forall₂_map_right_iff.mpr
    (List.forall₂_same.mpr fun i _ => r.alike_instruction slots i)
  ranges := by
    refine (List.map_map ..).trans (List.map_congr_left fun range _ => ?_)
    rfl
  limit := rfl

end Renaming

theorem Descriptor.Exact.descriptor {within : Nat → Nat → Prop}
    {parse : String → Option (List ValueType × ValueType)} (exactly : Exact within parse) (r : Renaming)
    (legalOld : IsClassName r.old.toList) (legalNew : IsClassName r.new.toList) (d : String) :
    parse (r.descriptor d) = parse d := by
  have recast := r.recast_descriptor d
  apply Option.ext
  intro values
  exact ⟨exactly.recast legalNew legalOld recast.symm, exactly.recast legalOld legalNew recast⟩

-- A renaming from one legal name to another keeps the flow of every method: under any parser of exactly
-- the method descriptors of the grammar, and under the one that the program is run with. Heights and
-- errors are the same, up to the descriptor that an error quotes, and a graph that was that of the body
-- is so still.
theorem Program.same_flow_rename_class [libraries : Libraries] (p q : Program) (id : ClassId)
    (old new : String) (within : Nat → Nat → Prop)
    (parses : Descriptor.Exact within Libraries.methodTypes? ∨ libraries = .standard)
    (unique : p.methodIds.Nodup) (named : p.className? id = some old)
    (legalOld : Descriptor.IsClassName old.toList) (legalNew : Descriptor.IsClassName new.toList)
    (done : p.renameClass id new = .ok q) :
    let r : Renaming := ⟨old, new⟩
    (∀ d, Libraries.methodTypes? (r.descriptor d) = Libraries.methodTypes? d ∧
        Descriptor.methodSlots? (r.descriptor d) = Descriptor.methodSlots? d ∧
        Descriptor.fieldSlots (r.descriptor d) = Descriptor.fieldSlots d) ∧
      q.methodIds = p.methodIds ∧
      ∀ method m', q.method? method = some m' → ∃ m, p.method? method = some m ∧
        m'.graph = m.graph ∧ m'.analyse = m.analyse.mapText r.descriptor ∧
        m'.buildGraph.1 = m.buildGraph.1 ∧ (m.buildGraph.1 = m.graph → m'.buildGraph.1 = m'.graph) := by
  intro r
  have sameTypes : ∀ d, Libraries.methodTypes? (r.descriptor d) = Libraries.methodTypes? d := by
    rcases parses with exactly | rfl
    · exact exactly.descriptor r legalOld legalNew
    · exact r.method_types?_descriptor legalOld.no_semicolon legalNew.no_semicolon
  have sameSlots : ∀ d, Descriptor.methodSlots? (r.descriptor d) = Descriptor.methodSlots? d := by
    intro d
    rw [Descriptor.methodSlots?, sameTypes, Descriptor.methodSlots?]
  obtain ⟨old', named', renamed⟩ := methods_rename_class p id q new unique done
  obtain rfl : old = old' := Option.some.inj (named.symm.trans named')
  refine ⟨fun d => ⟨sameTypes d, sameSlots d, r.field_slots_descriptor d⟩, ?_, ?_⟩
  · rw [methodIds, renamed, Table.keys_map_values]
    rfl
  · intro method m' live
    rw [method?, renamed, Table.get?_map_values] at live
    obtain ⟨m, liveBefore, rfl⟩ := Option.map_eq_some_iff.mp live
    have alike := r.alike_method_text sameSlots m
    have built := congrArg Prod.fst (Method.build_graph_alike alike)
    exact ⟨m, liveBefore, rfl, Method.analyse_alike alike, built, fun current => built.trans current⟩

-- A class with two bodies. One passes arrays of the class on, the other calls with a descriptor that
-- breaks off after its parameter.
def nested : List WorkStep :=
  let visit (event : ClassEvent) : WorkStep := .history (.act (.visit 0 event))
  let code (opcode : Opcode) (operand : Operand) : WorkStep := visit (.instruction opcode operand)
  let method (name descriptor : String) : WorkStep :=
    visit (.method ⟨name, descriptor, none, default, [], []⟩)
  [.history (.act .openBuilder), visit (.header ⟨"a/B", none, [], none, default, 52, [], []⟩),
    method "f" "([[La/B;)V", code 42 .simple, code 20 (.constant (.long 1)),
    code 184 (.call ⟨"a/B", "f", "([[La/B;J)La/B;", false, .static⟩), code 87 .simple,
    code 177 .simple, visit (.methodEnd none none),
    method "g" "()V", code 184 (.call ⟨"a/B", "g", "(La/B;", false, .static⟩), code 177 .simple,
    visit (.methodEnd none none), visit .classEnd, .build]

-- The parser of the grammar among the libraries that the program is run with.
abbrev Libraries.strict : Libraries := { standard with methodTypes? := Descriptor.strictTypes? }

theorem Program.same_flow_rename_class_nested :
    letI := Libraries.strict
    let p := Session.prepared {} nested
    let r : Renaming := ⟨"a/B", "c/D/E"⟩
    ∃ q, (Descriptor.Exact (fun dimensions _ => dimensions ≤ 255) Libraries.methodTypes? ∧
        p.methodIds.Nodup ∧ p.className? ⟨1⟩ = some r.old ∧ Descriptor.IsClassName r.old.toList ∧
        Descriptor.IsClassName r.new.toList ∧ p.renameClass ⟨1⟩ r.new = .ok q) ∧
      (∀ method m', q.method? method = some m' → ∃ m, p.method? method = some m ∧
        m'.analyse = m.analyse.mapText r.descriptor ∧ m'.buildGraph.1 = m.buildGraph.1) ∧
      (q.method? ⟨2⟩).map (·.analyse.result.toOption) =
        some (some ⟨#[some 0, some 1, some 3, some 1, some 0]⟩) ∧
      (q.method? ⟨8⟩).map (·.buildGraph.2) = some (some (.descriptor 0 "(Lc/D/E;")) := by
  let libraries := Libraries.strict
  intro p r
  have facts : (p.renameClass ⟨1⟩ r.new).toOption.map (fun q =>
      ((q.method? ⟨2⟩).map (·.analyse.result.toOption), (q.method? ⟨8⟩).map (·.buildGraph.2))) =
      some (some (some ⟨#[some 0, some 1, some 3, some 1, some 0]⟩),
        some (some (.descriptor 0 "(Lc/D/E;"))) := by
    decide +kernel
  obtain ⟨q, done, facts⟩ := except_shown _ _ _ facts
  have named : p.className? ⟨1⟩ = some r.old := by decide +kernel
  have unique : p.methodIds.Nodup := by decide +kernel
  have legalOld : Descriptor.IsClassName r.old.toList := by decide +kernel
  have legalNew : Descriptor.IsClassName r.new.toList := by decide +kernel
  have same := same_flow_rename_class p q ⟨1⟩ r.old r.new _ (.inl Descriptor.exact_strict_types?)
    unique named legalOld legalNew done
  refine ⟨q, ⟨Descriptor.exact_strict_types?, unique, named, legalOld, legalNew, done⟩, ?_, ?_, ?_⟩
  · intro method m' live
    obtain ⟨m, liveBefore, _, analysis, built, _⟩ := same.2.2 method m' live
    exact ⟨m, liveBefore, analysis, built⟩
  · exact congrArg Prod.fst facts
  · exact congrArg Prod.snd facts

end JvmEdit
