import JvmEdit.Libraries.Standard
import JvmEdit.Proofs.Flow.Pruning
import JvmEdit.Proofs.Pass.Cutting
import JvmEdit.Proofs.Pass.Run
set_option autoImplicit false

namespace JvmEdit

namespace DeadCode

open JvmEdit.Flow (Moved Prunes)

def pruned [Libraries] (m : Method) : Stream := m.code.retain fun i => !decide (i.id ∈ unreachable m)

-- The labels of a method and the instructions that its analysis came to.
def reached (m : Method) (frames : Flow.Frames) : List Instruction :=
  (m.code.toList.zipIdx.filter fun (i, position) => i.isLabel || frames.isReachable position).map Prod.fst

theorem unreachable_of_source [Libraries] {m m' : Method} (same : m'.source = m.source) :
    unreachable m' = unreachable m := by
  simp only [Method.source, Prod.mk.injEq] at same
  obtain ⟨_, code, ranges, limit⟩ := same
  rw [unreachable, unreachable, Method.analyse, Method.analyse, code, ranges, limit]

section Shortened

variable (p : Program) (id : MethodId) (m : Method)

-- A program in which a method has been visited.
structure Visited [Libraries] (q : Program) : Prop where
  sources : ∀ other, (q.method? other).map Method.source = if id = other then
    some (m.kind, pruned m, m.tryRanges, m.maxStack) else (p.method? other).map Method.source
  sound : q.Sound
  forgotten : ∀ insn ∈ unreachable m, ∀ target, ¬q.Holds target ⟨id, insn⟩
  locals : ∀ m', q.method? id = some m' → ∀ insn ∈ unreachable m, ∀ v ∈ m'.locals, insn ∉ v.references

theorem mem_scope {code : Stream} {start stop : LabelId} {i : Instruction}
    (member : i ∈ LocalVariable.scope code start stop) : i ∈ code.toList := by
  rw [LocalVariable.scope] at member
  split at member
  · exact List.mem_of_mem_take (List.mem_of_mem_drop member)
  · cases member

-- The program with the code of the method cut down, its records as they were.
def shortened [Libraries] : Program := p.updateMethod id fun m' => { m' with code := pruned m }

variable (live : p.method? id = some m) (unique : (m.code.toList.map (·.id)).Nodup) (sound : p.Sound)

include live

theorem site?_shortened [Libraries] (ref : InsnRef)
    (left : ¬(ref.method = id ∧ ref.insn ∈ unreachable m)) :
    (shortened p id m).site? ref = p.site? ref := by
  rw [Program.site?, shortened, Program.method?_update_method, Program.site?]
  by_cases own : id = ref.method
  · have kept : (pruned m).get? ref.insn = m.code.get? ref.insn := by
      rw [pruned, Stream.get?_retain m.code (fun insn => !decide (insn ∈ unreachable m)), if_pos]
      simpa using fun member => left ⟨own.symm, member⟩
    rw [if_pos own, ← own, live, Option.map_some, Option.bind_some, Option.bind_some]
    dsimp only
    rw [kept]
  · rw [if_neg own]

include unique sound

theorem holds_forgotten [Libraries] (target : Target) (ref : InsnRef)
    (holds : ((shortened p id m).forgetAll id m.owner (m.code.cut (unreachable m)).2.reverse).Holds target ref) :
    p.Holds target ref ∧ ¬(ref.method = id ∧ ref.insn ∈ unreachable m) := by
  obtain ⟨before, forgotten⟩ := Program.holds_forget_all _ id m.owner _ target ref holds
  rw [shortened, Program.Holds, Program.records_update_method p id _ (by intro m'; rfl)] at before
  refine ⟨before, ?_⟩
  intro gone
  obtain ⟨method, insn⟩ := ref
  obtain ⟨rfl, dead⟩ := gone
  obtain ⟨context, operand, site, named⟩ := sound.site target _ before
  rw [Program.site?, live, Option.bind_some] at site
  obtain ⟨i, present, pair⟩ := Option.map_eq_some_iff.mp site
  cases pair
  obtain ⟨member, rfl⟩ := Stream.mem_of_get? _ _ _ present
  apply forgotten i _ (Program.is_reference_of_lookup? p m.owner i.operand target named) rfl
  · rw [← named]
    exact Program.lookup?_congr p (shortened p method m) rfl (fun _ => rfl) m.owner i.operand
  · exact List.mem_reverse.mpr ((m.code.cut_retain (unreachable m) unique).2 i member dead)

theorem visited_delete_instructions [Libraries] :
    ∃ logged, p.deleteInstructions id (unreachable m) = .ok logged ∧ Visited p id m logged.value.1 := by
  have done := Program.delete_instructions_eq p id (unreachable m) m live
  have sources := Program.sources_delete_instructions live done unique
  refine ⟨_, done, ?_⟩
  rw [(m.code.cut_retain (unreachable m) unique).1] at sources ⊢
  let forgotten := (shortened p id m).forgetAll id m.owner (m.code.cut (unreachable m)).2.reverse
  have held := holds_forgotten p id m live unique sound
  have refreshed : ∀ target, (forgotten.refresh [id]).value.records target = forgotten.records target :=
    Program.records_refresh forgotten [id]
  change Visited p id m (forgotten.refresh [id]).value
  constructor
  · exact sources
  · intro target ref holds
    rw [Program.Holds, refreshed] at holds
    obtain ⟨before, left⟩ := held target ref holds
    obtain ⟨context, operand, site, named⟩ := sound.site target ref before
    have same := Program.same_sites_forget_all (shortened p id m) id m.owner
      (m.code.cut (unreachable m)).2.reverse
    rw [(Program.same_sites_refresh forgotten [id]).target?, same.target?, Program.target?_eq,
      site?_shortened p id m live ref left, site, Option.bind_some, ← named]
    exact Program.lookup?_congr p (shortened p id m) rfl (fun _ => rfl) context operand
  · intro insn dead target holds
    rw [Program.Holds, refreshed] at holds
    exact (held target _ holds).2 ⟨rfl, dead⟩
  · intro m' live' insn dead v member
    have row := sources id
    rw [if_pos rfl] at row
    obtain ⟨_, present, cut⟩ := Option.map_eq_some_iff.mp row
    cases live'.symm.trans present
    have code : m'.code = pruned m := congrArg (·.2.1) cut
    rw [Program.method?_refresh, if_pos rfl] at live'
    obtain ⟨before, _, rfl⟩ := Option.map_eq_some_iff.mp live'
    change before.code = pruned m at code
    obtain ⟨v, _, rfl⟩ := List.mem_map.mp member
    intro kept
    obtain ⟨i, touching, rfl⟩ := List.mem_map.mp ((OrderedSet.mem_of_list _ _).mp kept)
    have left := mem_scope (List.mem_filter.mp touching).1
    rw [code, pruned, Stream.to_list_retain, List.mem_filter] at left
    simp [dead] at left

end Shortened

section Analysed

variable [Libraries] {m : Method} {frames : Flow.Frames} (analysed : m.analyse.result = .ok frames)
  (unique : (m.code.toList.map (·.id)).Nodup)

include analysed unique

theorem dead_iff {p : Nat} {i : Instruction} (here : m.code.toList[p]? = some i) :
    i.id ∈ unreachable m ↔ i.isLabel = false ∧ frames.isReachable p = false := by
  rw [unreachable, analysed]
  dsimp only
  rw [List.mem_filterMap]
  constructor
  · intro ⟨(j, q), member, dead⟩
    rw [List.mem_zipIdx_iff_getElem?] at member
    obtain ⟨unreached, same⟩ := Option.ite_none_right_eq_some.mp dead
    have atP : (m.code.toList.map (·.id))[p]? = some i.id := by rw [List.getElem?_map, here]; rfl
    have atQ : (m.code.toList.map (·.id))[q]? = some j.id := by rw [List.getElem?_map, member]; rfl
    rw [Option.some.inj same, ← atP] at atQ
    have inside : q < (m.code.toList.map (·.id)).length := by
      rw [List.length_map]
      exact (List.getElem?_eq_some_iff.mp member).1
    cases (List.getElem?_inj inside unique).mp atQ
    cases here.symm.trans member
    simpa using unreached
  · intro ⟨real, unreached⟩
    refine ⟨(i, p), List.mem_zipIdx_iff_getElem?.mpr here, ?_⟩
    simp [real, unreached]

theorem to_list_pruned : (pruned m).toList = reached m frames := by
  have rows : m.code.toList = m.code.toList.zipIdx.map Prod.fst := (List.zipIdx_map_fst 0 _).symm
  rw [pruned, Stream.to_list_retain, reached]
  conv => lhs; rw [rows, List.filter_map]
  congr 1
  apply List.filter_congr
  intro (i, p) listed
  have member : m.code.toList[p]? = some i := List.mem_zipIdx_iff_getElem?.mp listed
  change (!decide (i.id ∈ unreachable m)) = (i.isLabel || frames.isReachable p)
  rw [Bool.eq_iff_iff, Bool.not_eq_true', decide_eq_false_iff_not, dead_iff analysed unique member,
    Bool.or_eq_true, not_and_or, Bool.not_eq_false, Bool.not_eq_false]

theorem prunes_pruned : Prunes m.code.toList (pruned m).toList m.tryRanges m.maxStack where
  distinct := unique.of_map _
  part := List.filter_sublist
  labels i member marker := by
    obtain ⟨p, here⟩ := List.mem_iff_getElem?.mp member
    rw [pruned, Stream.to_list_retain, List.mem_filter]
    simp [member, dead_iff analysed unique here, marker]
  reached p i here reachable := by
    have found := (Flow.is_reachable_iff m frames analysed p).mpr reachable
    rw [pruned, Stream.to_list_retain, List.mem_filter]
    simp [List.mem_of_getElem? here, dead_iff analysed unique here, found]

-- A method after dead code has been taken out of it.
structure Pruned (m m' : Method) (frames : Flow.Frames) : Prop where
  code : m'.code.toList = reached m frames
  accepted : ∃ frames', m'.analyse.result = .ok frames' ∧
    (∀ p q, Moved m.code.toList m'.code.toList p q →
      frames'.height? q = frames.height? p ∧ frames'.isReachable q = frames.isReachable p) ∧
    ∀ (q : Nat) i, m'.code.toList[q]? = some i → i.isLabel = false → frames'.isReachable q = true
  flow : ∀ p q p' q', Moved m.code.toList m'.code.toList p q → Moved m.code.toList m'.code.toList p' q' →
    (.flow p p' ∈ m.analyse.trace ↔ .flow q q' ∈ m'.analyse.trace)
  exception : ∀ p q p' q', Moved m.code.toList m'.code.toList p q →
    Moved m.code.toList m'.code.toList p' q' →
      (.exception p p' ∈ m.analyse.trace ↔ .exception q q' ∈ m'.analyse.trace)

omit analysed unique in
theorem traces_of_moved {p q : Nat} (analysed : m.analyse.result = .ok frames)
    {code' : List Instruction} (moved : Moved m.code.toList code' p q) :
    Flow.Consistent m.code.toList m.tryRanges m.maxStack ∧
      Flow.Traces m.code.toList m.tryRanges m.maxStack m.analyse.trace := by
  obtain ⟨i, here, _⟩ := moved
  exact Flow.analyse_traces m frames (List.ne_nil_of_mem (List.mem_of_getElem? here)) analysed

theorem analyse_pruned : ∃ frames', (Flow.analyse (pruned m) m.tryRanges m.maxStack).result = .ok frames' := by
  apply (Flow.accepted_iff (pruned m) m.tryRanges m.maxStack).mpr
  have prunes := prunes_pruned analysed unique
  rcases (Flow.accepted_iff m.code m.tryRanges m.maxStack).mp ⟨frames, analysed⟩ with empty | consistent
  · exact .inl (List.sublist_nil.mp (empty ▸ prunes.part))
  · exact .inr (prunes.stays_consistent consistent)

theorem height?_pruned {frames' : Flow.Frames}
    (again : (Flow.analyse (pruned m) m.tryRanges m.maxStack).result = .ok frames') {p q : Nat}
    (moved : Moved m.code.toList (pruned m).toList p q) : frames'.height? q = frames.height? p := by
  have prunes := prunes_pruned analysed unique
  obtain ⟨consistent, _⟩ := traces_of_moved analysed moved
  apply Option.ext
  intro height
  rw [Flow.height?_analyse m.code m.tryRanges m.maxStack frames analysed,
    Flow.height?_analyse (pruned m) m.tryRanges m.maxStack frames' again]
  exact (prunes.reaches_iff consistent moved height).symm

theorem pruned_of_cut {m' : Method} (cut : m'.source = (m.kind, pruned m, m.tryRanges, m.maxStack)) :
    Pruned m m' frames := by
  obtain ⟨frames', again⟩ := analyse_pruned analysed unique
  have prunes := prunes_pruned analysed unique
  simp only [Method.source, Prod.mk.injEq] at cut
  obtain ⟨_, code, ranges, limit⟩ := cut
  have answers : m'.analyse.result = .ok frames' := by
    rw [Method.analyse, code, ranges, limit, again]
  have traces : ∀ p q, Moved m.code.toList (pruned m).toList p q →
      Flow.Traces (pruned m).toList m.tryRanges m.maxStack m'.analyse.trace := by
    intro p q moved
    obtain ⟨i, _, after⟩ := moved
    have nonempty := List.ne_nil_of_mem (List.mem_of_getElem? after)
    have noted := (Flow.analyse_traces m' frames' (code ▸ nonempty) answers).2
    rwa [code, ranges, limit] at noted
  constructor
  · rw [code, to_list_pruned analysed unique]
  · rw [code]
    refine ⟨frames', answers, ?_, ?_⟩
    · intro p q moved
      have heights := height?_pruned analysed unique again moved
      rw [Flow.Frames.isReachable, Flow.Frames.isReachable, heights]
      exact ⟨rfl, rfl⟩
    · intro q i after real
      obtain ⟨p, moved⟩ := prunes.back (List.getElem?_eq_some_iff.mp after).1
      have left := List.mem_of_getElem? after
      rw [pruned, Stream.to_list_retain, List.mem_filter, Bool.not_eq_true', decide_eq_false_iff_not,
        dead_iff analysed unique (moved.before after), not_and, Bool.not_eq_false] at left
      rw [Flow.Frames.isReachable, height?_pruned analysed unique again moved]
      exact left.2 real
  · intro p q p' q' moved moved'
    rw [code] at moved moved'
    obtain ⟨consistent, noted⟩ := traces_of_moved analysed moved
    rw [noted.flow, (traces p q moved).flow, prunes.follows_iff consistent moved moved']
  · intro p q p' q' moved moved'
    rw [code] at moved moved'
    obtain ⟨consistent, noted⟩ := traces_of_moved analysed moved
    rw [noted.exception, (traces p q moved).exception, prunes.throws_iff consistent moved moved']

theorem unreachable_pruned {m' : Method}
    (cut : m'.source = (m.kind, pruned m, m.tryRanges, m.maxStack)) : unreachable m' = [] := by
  obtain ⟨frames', answers, _, live⟩ := (pruned_of_cut analysed unique cut).accepted
  rw [unreachable, answers]
  dsimp only
  rw [List.filterMap_eq_nil_iff]
  intro (i, q) listed
  have after : m'.code.toList[q]? = some i := List.mem_zipIdx_iff_getElem?.mp listed
  cases marker : i.isLabel with
  | true => simp
  | false => simp [live q i after marker]

end Analysed

theorem pruned_of_none [Libraries] {m : Method} (none : unreachable m = []) : pruned m = m.code := by
  rw [pruned, none]
  simp [Stream.retain]

theorem unreachable_cut [Libraries] {m m' : Method} (unique : (m.code.toList.map (·.id)).Nodup)
    (cut : m'.source = (m.kind, pruned m, m.tryRanges, m.maxStack)) : unreachable m' = [] := by
  cases answer : m.analyse.result with
  | ok frames => exact unreachable_pruned answer unique cut
  | error e =>
      have none : unreachable m = [] := by rw [unreachable, answer]
      have same : m'.source = m.source := by rw [cut, pruned_of_none none]; rfl
      rw [unreachable_of_source same, none]

section Visit

variable (c : PassContext) (id : MethodId) (m : Method) (live : c.program.method? id = some m)

include live

theorem visit_settled [Libraries] (none : unreachable m = []) : Yields
    (visit id) c fun _ after => after = c := by
  apply yields_get_bind
  rw [live]
  dsimp only
  rw [none]
  exact yields_pure () c _ rfl

theorem visited_settled [Libraries] (none : unreachable m = []) (sound : c.program.Sound) :
    Visited c.program id m c.program where
  sources other := by
    by_cases same : id = other
    · rw [if_pos same, ← same, live, pruned_of_none none]
      rfl
    · rw [if_neg same]
  sound := sound
  forgotten insn dead := by
    rw [none] at dead
    cases dead
  locals _ _ insn dead := by
    rw [none] at dead
    cases dead

theorem yields_visit [Libraries] (unique : (m.code.toList.map (·.id)).Nodup) (sound : c.program.Sound) :
    Yields (visit id) c fun _ after => Visited c.program id m after.program := by
  cases dead : unreachable m with
  | nil =>
      apply yields_mono _ c _ _ (visit_settled c id m live dead)
      intro _ after same
      rw [same]
      exact visited_settled c id m live dead sound
  | cons insn rest =>
      obtain ⟨logged, done, visited⟩ := visited_delete_instructions c.program id m live unique sound
      apply yields_get_bind
      rw [live]
      dsimp only
      rw [done, if_pos (by simp [dead])]
      apply yields_bind (set (c.accept (Prod.fst <$> logged))) _ c
        fun _ now => Visited c.program id m now.program
      · exact ⟨(), _, rfl, visited⟩
      · intro _ now visited
        apply Work.yields_record
        intro _
        exact visited

end Visit

-- No two instructions of a body have one identity.
def Distinct (p : Program) : Prop :=
  ∀ id m, p.method? id = some m → (m.code.toList.map (·.id)).Nodup

theorem Visited.row [Libraries] {p q : Program} {id : MethodId} {m : Method}
    (visited : Visited p id m q)
    {other : MethodId} {m' : Method} (live : q.method? other = some m') :
    (other = id ∧ m'.source = (m.kind, pruned m, m.tryRanges, m.maxStack)) ∨
      other ≠ id ∧ ∃ before, p.method? other = some before ∧ m'.source = before.source := by
  have row := visited.sources other
  rw [live, Option.map_some] at row
  by_cases same : id = other
  · rw [if_pos same] at row
    exact .inl ⟨same.symm, Option.some.inj row⟩
  · rw [if_neg same] at row
    obtain ⟨before, present, sameSource⟩ := Option.map_eq_some_iff.mp row.symm
    exact .inr ⟨Ne.symm same, before, present, sameSource.symm⟩

theorem Visited.distinct [Libraries] {p q : Program} {id : MethodId} {m : Method}
    (visited : Visited p id m q)
    (live : p.method? id = some m) (distinct : Distinct p) : Distinct q := by
  intro other m' live'
  rcases visited.row live' with ⟨_, cut⟩ | ⟨_, before, present, same⟩
  · have code : m'.code = pruned m := congrArg (·.2.1) cut
    rw [code]
    exact (distinct id m live).sublist (List.filter_sublist.map _)
  · have code : m'.code = before.code := congrArg (·.2.1) same
    rw [code]
    exact distinct other before present

section Runs

variable (c : PassContext)

theorem clean_run [Libraries] (distinct : Distinct c.program) (sound : c.program.Sound) :
    Yields Pass.deadCodeRemover.run c fun _ after =>
      ∀ id m, after.program.method? id = some m → m.isConstructor = false → unreachable m = [] := by
  apply yields_mono _ c _ _ (Pass.yields_run_settles .deadCodeRemover rfl
    (fun p => Distinct p ∧ p.Sound) (fun m => unreachable m = []) ?_ (fun c => yields_pure _ c _ rfl)
    ⟨distinct, sound⟩)
  · intro _ _ clean
    exact clean.2
  · intro c id m kept live
    obtain ⟨distinct, sound⟩ := kept
    apply yields_bind _ _ c _ _ (yields_visit c id m live (distinct id m live) sound)
    intro _ after visited
    refine yields_pure _ after _ ⟨rfl, ⟨visited.distinct live distinct, visited.sound⟩, ?_⟩
    intro other m' live'
    rcases visited.row live' with ⟨same, cut⟩ | ⟨apart, before, present, same⟩
    · exact .inl ⟨same, unreachable_cut (distinct id m live) cut⟩
    · have kind : m'.kind = before.kind := congrArg (·.1) same
      exact .inr ⟨apart, before, present, kind, fun none => (unreachable_of_source same).trans none⟩

theorem run_clean [Libraries] (clean : ∀ id m, c.program.method? id = some m → m.isConstructor = false →
    unreachable m = []) : Yields Pass.deadCodeRemover.run c fun _ after => after = c := by
  apply Pass.yields_run_settled .deadCodeRemover rfl (fun m => unreachable m = []) _ _ clean
  · intro id m live none
    apply yields_bind _ _ c _ _ (visit_settled c id m live none)
    intro _ after same
    exact yields_pure _ after _ ⟨rfl, same⟩
  · exact yields_pure _ c _ rfl

end Runs

-- A visit removes what control does not come to and nothing else, and a second run has nothing to do.
theorem removes_exactly [Libraries] (c : PassContext) (distinct : Distinct c.program)
    (sound : c.program.Sound) :
    (∀ id m frames, c.program.method? id = some m → m.analyse.result = .ok frames →
      Yields (visit id) c fun _ after => ∃ m', after.program.method? id = some m' ∧ Pruned m m' frames ∧
        ∀ i ∈ m.code.toList, i ∉ m'.code.toList →
          (∀ target, ¬after.program.Holds target ⟨id, i.id⟩) ∧ ∀ v ∈ m'.locals, i.id ∉ v.references) ∧
    (∀ id m e, c.program.method? id = some m → m.analyse.result = .error e →
      Yields (visit id) c fun _ after => after = c) ∧
    Yields Pass.deadCodeRemover.run c fun _ after => ∀ next : PassContext, next.program = after.program →
      Yields Pass.deadCodeRemover.run next fun _ again => again = next := by
  refine ⟨?_, ?_, ?_⟩
  · intro id m frames live analysed
    have unique := distinct id m live
    apply yields_mono _ c _ _ (yields_visit c id m live unique sound)
    intro _ after visited
    have row := visited.sources id
    rw [if_pos rfl] at row
    obtain ⟨m', live', cut⟩ := Option.map_eq_some_iff.mp row
    refine ⟨m', live', pruned_of_cut analysed unique cut, ?_⟩
    intro i member gone
    have dead : i.id ∈ unreachable m := by
      by_contra reached
      have code : m'.code = pruned m := congrArg (·.2.1) cut
      rw [code, pruned, Stream.to_list_retain, List.mem_filter] at gone
      simp [member, reached] at gone
    exact ⟨visited.forgotten i.id dead, visited.locals m' live' i.id dead⟩
  · intro id m e live refused
    apply visit_settled c id m live
    rw [unreachable, refused]
  · apply yields_mono _ c _ _ (clean_run c distinct sound)
    intro _ after clean next same
    rw [← same] at clean
    exact run_clean next clean

end DeadCode

namespace Session

-- A call that is jumped over, and a method whose stack runs empty.
def deadCall : List SessionAction :=
  let method (name : String) : ClassEvent := .method ⟨name, "()V", none, .staticFlag, [], []⟩
  [.openBuilder, .visit 0 (.header ⟨"A", some "java/lang/Object", [], none, default, 52, [], []⟩),
    .visit 0 (method "helper"), .visit 0 (.instruction 177 .simple),
    .visit 0 (method "run"), .visit 0 .newLabel, .visit 0 (.instruction 167 (.jump ⟨0⟩)),
    .visit 0 (.instruction 184 (.call ⟨"A", "helper", "()V", false, .static⟩)),
    .visit 0 (.instruction 255 (.label ⟨0⟩)), .visit 0 (.instruction 177 .simple),
    .visit 0 (method "broken"), .visit 0 (.instruction 87 .simple), .visit 0 .classEnd]

theorem removes_exactly_dead_call :
    let p := ready {} deadCall
    let c : PassContext := { pass := "cleaner", program := p }
    let m := (p.method? ⟨4⟩).getD default
    let broken := (p.method? ⟨11⟩).getD default
    let frames : Flow.Frames := ⟨#[some 0, none, some 0, some 0]⟩
    (DeadCode.Distinct p ∧ p.Sound ∧ p.method? ⟨4⟩ = some m ∧ m.analyse.result = .ok frames ∧
      p.method? ⟨11⟩ = some broken ∧ broken.analyse.result = .error (.underflow 0)) ∧
    Yields (DeadCode.visit ⟨4⟩) c (fun _ after => ∃ m', after.program.method? ⟨4⟩ = some m' ∧
      DeadCode.Pruned m m' frames ∧ m'.code.toList.map (·.opcode) = [.goto, .label, .returnVoid] ∧
        p.Holds (.method ⟨2⟩) ⟨⟨4⟩, ⟨8⟩⟩ ∧ ¬after.program.Holds (.method ⟨2⟩) ⟨⟨4⟩, ⟨8⟩⟩) ∧
    Yields (DeadCode.visit ⟨11⟩) c (fun _ after => after = c) ∧
    Yields Pass.deadCodeRemover.run c fun _ after => ∀ next : PassContext, next.program = after.program →
      Yields Pass.deadCodeRemover.run next fun _ again => again = next := by
  intro p c m broken frames
  obtain ⟨bound, _⟩ := bound_complete_ready {} deadCall (by decide)
  have distinct : DeadCode.Distinct p := fun id m live => (bound.coded id m live).unique
  have live : p.method? ⟨4⟩ = some m := by decide +kernel
  have analysed : m.analyse.result = .ok frames := by decide +kernel
  have liveToo : p.method? ⟨11⟩ = some broken := by decide +kernel
  have refused : broken.analyse.result = .error (.underflow 0) := by decide +kernel
  have left : DeadCode.reached m frames = [⟨⟨7⟩, .goto, .jump ⟨5⟩⟩, ⟨⟨9⟩, .label, .label ⟨5⟩⟩,
      ⟨⟨10⟩, .returnVoid, .simple⟩] := by decide +kernel
  obtain ⟨visits, failing, again⟩ := DeadCode.removes_exactly c distinct bound.sound
  refine ⟨⟨distinct, bound.sound, live, analysed, liveToo, refused⟩, ?_, failing _ _ _ liveToo refused, again⟩
  apply yields_mono _ c _ _ (visits ⟨4⟩ m frames live analysed)
  intro _ after visited
  obtain ⟨m', live', pruned, forgotten⟩ := visited
  have code := pruned.code.trans left
  have call : ⟨⟨8⟩, .invokeStatic, .call ⟨"A", "helper", "()V", false, .static⟩⟩ ∈ m.code.toList := by
    decide +kernel
  refine ⟨m', live', pruned, by rw [code]; rfl, by decide +kernel, ?_⟩
  exact (forgotten _ call (by rw [code]; decide)).1 (.method ⟨2⟩)

end Session

end JvmEdit
