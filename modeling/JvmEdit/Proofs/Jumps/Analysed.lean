import JvmEdit.Libraries.Standard
import JvmEdit.Proofs.Jumps.Settled
import JvmEdit.Proofs.Pass.Cutting
set_option autoImplicit false

namespace JvmEdit

namespace Jumps

open JvmEdit.Flow (Config Marks Stands Carries Flows Raises Steps Reaches Faulty Consistent Acts)

theorem effect_of_goto [Libraries] {i : Instruction} {label : LabelId} (isGoto : goto? i = some label) :
    Flow.effect i.opcode i.operand = .ok (0, 0) := by
  obtain ⟨away, goes⟩ := (goto?_iff i label).mp isGoto
  have plain : Opcode.goto.stackEffect = some (0, 0) ∧ Opcode.gotoW.stackEffect = some (0, 0) := by
    decide +kernel
  simp only [Opcode.isUnconditionalBranch, Bool.or_eq_true, decide_eq_true_eq] at away
  rw [goes]
  change Except.ok (i.opcode.stackEffect.getD (0, 0)) = _
  rcases away with near | far
  · rw [near, plain.1, Option.getD_some]
  · rw [far, plain.2, Option.getD_some]

theorem acts_retarget [Libraries] (f : LabelId → LabelId) (i : Instruction) : Acts i
    (retarget f i) := by
  obtain ⟨id, opcode, operand⟩ := i
  cases operand <;> exact ⟨rfl, rfl, rfl⟩

theorem call_descriptor?_retarget (f : LabelId → LabelId) (i : Instruction) :
    (retarget f i).callDescriptor? = i.callDescriptor? := by
  obtain ⟨id, opcode, operand⟩ := i
  cases operand <;> rfl

theorem carries_retarget [Libraries] {limit : Option UInt16} (f : LabelId → LabelId) (i : Instruction)
    (before after : Nat) : Carries limit (retarget f i) before after ↔ Carries limit i before after := by
  rw [Carries, Carries, (acts_retarget f i).effect]

theorem not_continues_of_exit {code : Stream} {i : Instruction} (member : i ∈ code.toList)
    {opcode : Opcode} (exits : (plan code).exit? i = some opcode) {n : InsnId} :
    (⟨n, opcode, .simple⟩ : Instruction).continues = false := by
  obtain ⟨_, r, _, _, returns, rfl⟩ := (exit?_iff code i member opcode).mp exits
  rw [Instruction.continues, Opcode.is_exit_of_is_return r.opcode returns]
  rfl

section Paths

variable [Libraries] {code : Stream} {ranges : List TryRange} {limit : Option UInt16}
  (unique : (code.toList.filterMap Instruction.label?).Nodup)
  (suited : ∀ i ∈ code.toList, Code.Suited i.opcode i.operand)
  (consistent : Consistent code.toList ranges limit)

omit [Libraries] in
include unique in
theorem stands_of_marks {p : Nat} {label : LabelId} (marks : Marks code.toList p label) :
    Stands code.toList label p :=
  ⟨marks, fun _ less again => Nat.ne_of_lt less (marks_unique unique marks again)⟩

include suited consistent in
theorem reaches_marker {p height : Nat} {i : Instruction} (here : code.toList[p]? = some i)
    (marker : i.isLabel = true) (reaches : Reaches code.toList ranges limit ⟨p, height⟩) :
    Reaches code.toList ranges limit ⟨p + 1, height⟩ := by
  have faultless := consistent.faultless _ reaches
  obtain ⟨plain, _, stays⟩ := Flow.plain_of_is_label marker
  obtain ⟨after, carries⟩ := Flow.carries_of_faultless here faultless
  cases carries.eq_of_plain plain
  have continues : i.continues = true := by
    have fits := suited i (List.mem_of_getElem? here)
    obtain ⟨id, opcode, operand⟩ := i
    cases operand with
    | label label =>
        cases (show opcode = Opcode.label from fits)
        rfl
    | _ => cases marker
  have inside : p + 1 < code.toList.length :=
    Nat.lt_of_not_le fun last => faultless (.fallsOff here continues last)
  exact ⟨reaches.1, reaches.2.tail (.inl (.next here carries continues stays inside))⟩

include suited consistent in
theorem reaches_rests {p q height : Nat} (rests : Rests code.toList p q)
    (reaches : Reaches code.toList ranges limit ⟨p, height⟩) :
    Reaches code.toList ranges limit ⟨q, height⟩ := by
  induction rests with
  | stop => exact reaches
  | label here marker _ ih => exact ih (reaches_marker suited consistent here marker reaches)

include unique consistent in
theorem reaches_target {p before after : Nat} {i : Instruction} {label : LabelId}
    (here : code.toList[p]? = some i) (carries : Carries limit i before after) (named : label ∈ i.targets)
    (reaches : Reaches code.toList ranges limit ⟨p, before⟩) :
    ∃ t, Marks code.toList t label ∧ Reaches code.toList ranges limit ⟨t, after⟩ := by
  have known : ∃ t, Marks code.toList t label := by
    by_contra absent
    exact consistent.faultless _ reaches (.unknownLabel here named (not_exists.mp absent))
  obtain ⟨t, marks⟩ := known
  exact ⟨t, marks, reaches.1,
    reaches.2.tail (.inl (.target here carries named (stands_of_marks unique marks)))⟩

include unique consistent in
theorem reaches_goto {p height : Nat} {i : Instruction} {label : LabelId}
    (here : code.toList[p]? = some i) (isGoto : goto? i = some label)
    (reaches : Reaches code.toList ranges limit ⟨p, height⟩) :
    ∃ t, Marks code.toList t label ∧ Reaches code.toList ranges limit ⟨t, height⟩ := by
  obtain ⟨after, carries⟩ := Flow.carries_of_faultless here (consistent.faultless _ reaches)
  cases carries.eq_of_plain (effect_of_goto isGoto)
  have named : label ∈ i.targets := by
    rw [Instruction.targets, ((goto?_iff i label).mp isGoto).2]
    exact List.mem_singleton_self _
  exact reaches_target unique consistent here carries named reaches

include unique suited consistent

theorem reaches_chain {label : LabelId} {path : List LabelId} (chain : Chain code label path)
    {t height : Nat} (marks : Marks code.toList t label)
    (reaches : Reaches code.toList ranges limit ⟨t, height⟩) :
    ∃ t', Marks code.toList t' (path.getLastD label) ∧
      Reaches code.toList ranges limit ⟨t', height⟩ := by
  induction chain generalizing t with
  | done => exact ⟨t, marks, reaches⟩
  | hop some _ ih =>
      obtain ⟨i, real, isGoto⟩ := Option.bind_eq_some_iff.mp some
      obtain ⟨p, r, marks', rests, here⟩ := (real_at_label?_iff unique _ i).mp real
      cases marks_unique unique marks marks'
      obtain ⟨t', marksNext, reachesNext⟩ := reaches_goto unique consistent here isGoto
        (reaches_rests suited consistent rests reaches)
      rw [List.getLastD_cons]
      exact ih marksNext reachesNext

theorem reaches_chain_end {label : LabelId} {t height : Nat} (marks : Marks code.toList t label)
    (reaches : Reaches code.toList ranges limit ⟨t, height⟩) :
    ∃ t', Marks code.toList t' (chainEnd code label) ∧
      Reaches code.toList ranges limit ⟨t', height⟩ := by
  by_cases ends : Ends code label
  · obtain ⟨path, chain⟩ := ends
    rw [chain_end_of_chain chain]
    exact reaches_chain unique suited consistent chain marks reaches
  · rw [chain_end_endless (not_exists.mp ends)]
    exact ⟨t, marks, reaches⟩

theorem reaches_exit {p height : Nat} {i : Instruction} {opcode : Opcode}
    (here : code.toList[p]? = some i) (exits : (plan code).exit? i = some opcode)
    (reaches : Reaches code.toList ranges limit ⟨p, height⟩) :
    ∃ q r, code.toList[q]? = some r ∧ Reaches code.toList ranges limit ⟨q, height⟩ ∧
      Flow.effect r.opcode r.operand = Flow.effect opcode .simple := by
  obtain ⟨label, r, isGoto, real, returns, rfl⟩ :=
    (exit?_iff code i (List.mem_of_getElem? here) opcode).mp exits
  obtain ⟨t, marks, reachesTarget⟩ := reaches_goto unique consistent here isGoto reaches
  obtain ⟨t', marksEnd, reachesEnd⟩ := reaches_chain_end unique suited consistent marks reachesTarget
  obtain ⟨t'', q, marksEnd', rests, there⟩ := (real_at_label?_iff unique _ r).mp real
  cases marks_unique unique marksEnd marksEnd'
  exact ⟨q, r, there, reaches_rests suited consistent rests reachesEnd,
    Flow.effect_of_exit (suited r (List.mem_of_getElem? there)) (Opcode.is_exit_of_is_return _ returns)⟩

variable (next : Nat)

omit [Libraries] suited consistent in
theorem stands_rewritten {p : Nat} {label : LabelId} (stands : Stands (threaded code next) label p) :
    Stands code.toList label p :=
  stands_of_marks unique ((marks_threaded code next p label).mp stands.1)

theorem reaches_flow {c d : Config} (reaches : Reaches code.toList ranges limit c)
    (flows : Flows (threaded code next) limit c d) : Reaches code.toList ranges limit d := by
  have size : (threaded code next).length = code.toList.length := length_apply _ _ _
  cases flows with
  | target there carries named stands =>
      obtain ⟨i, here, ⟨_, rfl⟩ | ⟨_, _, _, rfl⟩⟩ := threaded_cases code next there
      · rw [targets_retarget] at named
        obtain ⟨label, among, rfl⟩ := List.mem_map.mp named
        rw [finish_eq code label ⟨i, List.mem_of_getElem? here, among⟩] at stands
        obtain ⟨t, marks, reachesTarget⟩ := reaches_target unique consistent here
          ((carries_retarget _ i _ _).mp carries) among reaches
        obtain ⟨t', marksEnd, reachesEnd⟩ :=
          reaches_chain_end unique suited consistent marks reachesTarget
        cases marks_unique unique marksEnd (stands_rewritten unique next stands).1
        exact reachesEnd
      · cases named
  | next there carries continues stays inside =>
      obtain ⟨i, here, ⟨_, rfl⟩ | ⟨opcode, _, exits, rfl⟩⟩ := threaded_cases code next there
      · have acts := acts_retarget (plan code).finish i
        exact ⟨reaches.1, reaches.2.tail (.inl (.next here ((carries_retarget _ i _ _).mp carries)
          (acts.continues ▸ continues) (acts.calls ▸ stays) (size ▸ inside)))⟩
      · rw [not_continues_of_exit (List.mem_of_getElem? here) exits] at continues
        cases continues
  | comeBack there carries calls inside =>
      obtain ⟨i, here, ⟨_, rfl⟩ | ⟨opcode, _, exits, rfl⟩⟩ := threaded_cases code next there
      · have acts := acts_retarget (plan code).finish i
        exact ⟨reaches.1, reaches.2.tail (.inl (.comeBack here ((carries_retarget _ i _ _).mp carries)
          (acts.calls ▸ calls) (size ▸ inside)))⟩
      · cases calls

theorem reaches_threaded {c : Config} (reaches : Reaches (threaded code next) ranges limit c) :
    Reaches code.toList ranges limit c := by
  apply reaches.induct
  · intro nonempty
    refine ⟨?_, .refl⟩
    intro empty
    rw [threaded, empty] at nonempty
    exact nonempty rfl
  · intro c d before steps
    rcases steps with flows | raises
    · exact reaches_flow unique suited consistent next before flows
    · obtain ⟨member, starts, stops, enters, after, before'⟩ := raises
      exact ⟨before.1, before.2.tail (.inr (.handler member (stands_rewritten unique next starts)
        (stands_rewritten unique next stops) (stands_rewritten unique next enters) after before'))⟩

theorem faultless_threaded {c : Config} (reaches : Reaches code.toList ranges limit c) :
    ¬Faulty (threaded code next) limit c := by
  have faultless := consistent.faultless c reaches
  have size : (threaded code next).length = code.toList.length := length_apply _ _ _
  intro faulty
  cases faulty with
  | descriptor there call unreadable =>
      obtain ⟨i, here, ⟨_, rfl⟩ | ⟨_, _, _, rfl⟩⟩ := threaded_cases code next there
      · rw [call_descriptor?_retarget] at call
        exact faultless (.descriptor here call unreadable)
      · cases call
  | underflow there effect low =>
      obtain ⟨i, here, ⟨_, rfl⟩ | ⟨_, _, exits, rfl⟩⟩ := threaded_cases code next there
      · rw [(acts_retarget _ i).effect] at effect
        exact faultless (.underflow here effect low)
      · obtain ⟨q, r, atExit, reachesExit, same⟩ :=
          reaches_exit unique suited consistent here exits reaches
        exact consistent.faultless _ reachesExit (.underflow atExit (same.trans effect) low)
  | overflow there effect bounded high =>
      obtain ⟨i, here, ⟨_, rfl⟩ | ⟨_, _, exits, rfl⟩⟩ := threaded_cases code next there
      · rw [(acts_retarget _ i).effect] at effect
        exact faultless (.overflow here effect bounded high)
      · obtain ⟨q, r, atExit, reachesExit, same⟩ :=
          reaches_exit unique suited consistent here exits reaches
        exact consistent.faultless _ reachesExit (.overflow atExit (same.trans effect) bounded high)
  | unknownLabel there named absent =>
      obtain ⟨i, here, ⟨_, rfl⟩ | ⟨_, _, _, rfl⟩⟩ := threaded_cases code next there
      · rw [targets_retarget] at named
        obtain ⟨label, among, rfl⟩ := List.mem_map.mp named
        rw [finish_eq code label ⟨i, List.mem_of_getElem? here, among⟩] at absent
        obtain ⟨after, carries⟩ := Flow.carries_of_faultless here faultless
        obtain ⟨t, marks, reachesTarget⟩ := reaches_target unique consistent here carries among reaches
        obtain ⟨t', marksEnd, _⟩ := reaches_chain_end unique suited consistent marks reachesTarget
        exact absent t' ((marks_threaded code next t' _).mpr marksEnd)
      · cases named
  | fallsOff there continues last =>
      obtain ⟨i, here, ⟨_, rfl⟩ | ⟨opcode, _, exits, rfl⟩⟩ := threaded_cases code next there
      · rw [(acts_retarget _ i).continues] at continues
        exact faultless (.fallsOff here continues (size ▸ last))
      · rw [not_continues_of_exit (List.mem_of_getElem? here) exits] at continues
        cases continues

theorem consistent_threaded : Consistent (threaded code next) ranges limit where
  labels range member label named := by
    obtain ⟨p, marks⟩ := consistent.labels range member label named
    exact ⟨p, (marks_threaded code next p label).mpr marks⟩
  faultless c reaches := faultless_threaded unique suited consistent next
    (reaches_threaded unique suited consistent next reaches)
  heights p height height' reaches reaches' := consistent.heights p height height'
    (reaches_threaded unique suited consistent next reaches)
    (reaches_threaded unique suited consistent next reaches')

end Paths

theorem analyse_rewritten [Libraries] {code : Stream}
    (unique : (code.toList.filterMap Instruction.label?).Nodup)
    (suited : ∀ i ∈ code.toList, Code.Suited i.opcode i.operand) (ranges : List TryRange)
    (limit : Option UInt16) (next : Nat) (frames : Flow.Frames)
    (analysed : (Flow.analyse code ranges limit).result = .ok frames) :
    ∃ frames', (Flow.analyse (rewritten code next) ranges limit).result = .ok frames' ∧
      ∀ p, frames'.isReachable p = true → frames'.height? p = frames.height? p := by
  rcases (Flow.accepted_iff code ranges limit).mp ⟨frames, analysed⟩ with empty | consistent
  · have empty' : (rewritten code next).toList = [] := by
      rw [rewritten, threaded, empty]
      rfl
    obtain ⟨frames', again⟩ := (Flow.accepted_iff (rewritten code next) ranges limit).mpr (.inl empty')
    refine ⟨frames', again, ?_⟩
    intro p reachable
    obtain ⟨height, found⟩ := Option.isSome_iff_exists.mp reachable
    exact absurd empty' ((Flow.height?_analyse _ ranges limit frames' again p height).mp found).1
  · obtain ⟨frames', again⟩ := (Flow.accepted_iff (rewritten code next) ranges limit).mpr
      (.inr (consistent_threaded unique suited consistent next))
    refine ⟨frames', again, ?_⟩
    intro p reachable
    obtain ⟨height, found⟩ := Option.isSome_iff_exists.mp reachable
    rw [found]
    have reaches := (Flow.height?_analyse _ ranges limit frames' again p height).mp found
    exact ((Flow.height?_analyse code ranges limit frames analysed p height).mpr
      (reaches_threaded unique suited consistent next reaches)).symm

-- A method in whose body no jump can be threaded.
def Threaded (m : Method) : Prop := isPlanned (plan m.code) m.code = false

theorem sources_edit_body [Libraries] (p : Program) (id : MethodId) (f : Method → Method) (m : Method)
    (live : p.method? id = some m) : ∃ logged, p.editBody id f = .ok logged ∧ ∀ other,
      (logged.value.method? other).map Method.source =
        if id = other then some (f m).source else (p.method? other).map Method.source := by
  have done : p.editBody id f = .ok ((p.updateMethod id f).refresh [id]) := by
    rw [Program.editBody, live]
  refine ⟨_, done, ?_⟩
  intro other
  rw [Program.method?_refresh, Program.method?_update_method]
  by_cases own : id = other
  · rw [if_pos own, if_pos own, if_pos own, ← own, live]
    rfl
  · rw [if_neg own, if_neg own, if_neg own]

section Visits

variable (c : PassContext) (id : MethodId) (m : Method) (live : c.program.method? id = some m)

include live

theorem visit_threaded [Libraries] (idle : Threaded m) : Yields
    (visit id) c fun _ after => after = c := by
  apply yields_get_bind
  rw [live]
  dsimp only
  rw [show isPlanned (plan m.code) m.code = false from idle, if_neg Bool.false_ne_true]
  exact yields_pure () c _ rfl

theorem sources_visit [Libraries] : Yields (visit id) c fun _ after => ∀ other,
    (after.program.method? other).map Method.source = if id = other then
      some (m.kind, rewritten m.code c.program.nextId, m.tryRanges, m.maxStack)
    else (c.program.method? other).map Method.source := by
  cases planned : isPlanned (plan m.code) m.code with
  | false =>
      apply yields_mono _ c _ _ (visit_threaded c id m live planned)
      intro _ after same other
      subst same
      by_cases own : id = other
      · have unchanged : rewritten m.code after.program.nextId = m.code :=
          congrArg Stream.mk (apply_unplanned m.code _ planned)
        rw [if_pos own, ← own, live, unchanged]
        rfl
      · rw [if_neg own]
  | true =>
      apply yields_get_bind
      rw [live]
      dsimp only
      rw [planned, if_pos rfl]
      apply yields_bind _ _ c fun _ now => ∀ other,
        (now.program.method? other).map Method.source = if id = other then
          some (m.kind, rewritten m.code c.program.nextId, m.tryRanges, m.maxStack)
        else (c.program.method? other).map Method.source
      · obtain ⟨logged, done, rows⟩ := sources_edit_body (c.program.advance _) id
          (fun m' => { m' with code := ⟨apply (plan m.code) c.program.nextId m'.code.toList⟩ }) m
          (show (c.program.advance _).method? id = some m from live)
        apply Work.yields_edit _ (c.accept logged)
        · rw [done]
          rfl
        · exact rows
      · intro _ now rows
        exact Work.yields_record _ _ _ fun _ => rows

end Visits

section Runs

variable (c : PassContext)

theorem thread_run [Libraries] : Yields Pass.jumpOptimizer.run c fun _ after =>
    ∀ id m, after.program.method? id = some m → m.isConstructor = false → Threaded m := by
  apply yields_mono _ c _ _ (Pass.yields_run_settles .jumpOptimizer rfl (fun _ => True)
    Threaded ?_ (fun c => yields_pure _ c _ rfl) trivial)
  · intro _ _ settled
    exact settled.2
  · intro c id m _ live
    apply yields_bind _ _ c _ _ (sources_visit c id m live)
    intro _ after rows
    refine yields_pure _ after _ ⟨rfl, trivial, ?_⟩
    intro other m' live'
    have row := rows other
    rw [live', Option.map_some] at row
    by_cases own : id = other
    · rw [if_pos own, Option.some.injEq] at row
      have code : m'.code = rewritten m.code c.program.nextId := congrArg (·.2.1) row
      rw [Threaded, code]
      exact .inl ⟨own.symm, is_planned_rewritten m.code c.program.nextId⟩
    · rw [if_neg own] at row
      obtain ⟨before, present, same⟩ := Option.map_eq_some_iff.mp row.symm
      have kind : before.kind = m'.kind := congrArg (·.1) same
      have code : before.code = m'.code := congrArg (·.2.1) same
      refine .inr ⟨Ne.symm own, before, present, kind.symm, ?_⟩
      intro idle
      rwa [Threaded, ← code]

theorem run_threaded [Libraries]
    (idle : ∀ id m, c.program.method? id = some m → m.isConstructor = false → Threaded m) :
    Yields Pass.jumpOptimizer.run c fun _ after => after = c := by
  apply Pass.yields_run_settled .jumpOptimizer rfl Threaded _ _ idle
  · intro id m live idle
    apply yields_bind _ _ c _ _ (visit_threaded c id m live idle)
    intro _ after same
    exact yields_pure _ after _ ⟨rfl, same⟩
  · exact yields_pure _ c _ rfl

end Runs

-- A body that has been visited has nothing left to plan. An analysis that succeeded still does, with the
-- same heights at what is still reachable. And a second run changes nothing, so it records no edit.
theorem threads_once [Libraries] (c : PassContext) :
    (∀ id m, c.program.method? id = some m → Yields (visit id) c fun _ after =>
      ∃ m', after.program.method? id = some m' ∧ m'.code = rewritten m.code c.program.nextId ∧
        isPlanned (plan m'.code) m'.code = false ∧
        ((m.code.toList.filterMap Instruction.label?).Nodup →
          (∀ i ∈ m.code.toList, Code.Suited i.opcode i.operand) →
          ∀ frames, m.analyse.result = .ok frames → ∃ frames', m'.analyse.result = .ok frames' ∧
            ∀ p, frames'.isReachable p = true → frames'.height? p = frames.height? p)) ∧
    Yields Pass.jumpOptimizer.run c fun _ after => ∀ next : PassContext, next.program = after.program →
      Yields Pass.jumpOptimizer.run next fun _ again => again = next := by
  constructor
  · intro id m live
    apply yields_mono _ c _ _ (sources_visit c id m live)
    intro _ after rows
    have row := rows id
    rw [if_pos rfl] at row
    obtain ⟨m', live', source⟩ := Option.map_eq_some_iff.mp row
    simp only [Method.source, Prod.mk.injEq] at source
    obtain ⟨_, code, ranges, limit⟩ := source
    refine ⟨m', live', code, ?_, ?_⟩
    · rw [code]
      exact is_planned_rewritten m.code c.program.nextId
    · intro unique suited frames analysed
      rw [Method.analyse, code, ranges, limit]
      exact analyse_rewritten unique suited m.tryRanges m.maxStack c.program.nextId frames analysed
  · apply yields_mono _ c _ _ (thread_run c)
    intro _ after idle next same
    rw [← same] at idle
    exact run_threaded next idle

-- A branch to a jump to a return, a jump to that return, and a branch to a jump into a circle.
def circling : Stream := ⟨[
  ⟨⟨10⟩, .iconst0, .simple⟩,
  ⟨⟨11⟩, .ifEq, .jump ⟨1⟩⟩,
  ⟨⟨12⟩, .iconst0, .simple⟩,
  ⟨⟨13⟩, .ifEq, .jump ⟨2⟩⟩,
  ⟨⟨14⟩, .goto, .jump ⟨3⟩⟩,
  ⟨⟨15⟩, .label, .label ⟨1⟩⟩,
  ⟨⟨16⟩, .goto, .jump ⟨3⟩⟩,
  ⟨⟨17⟩, .label, .label ⟨2⟩⟩,
  ⟨⟨18⟩, .goto, .jump ⟨4⟩⟩,
  ⟨⟨19⟩, .label, .label ⟨3⟩⟩,
  ⟨⟨20⟩, .returnVoid, .simple⟩,
  ⟨⟨21⟩, .label, .label ⟨4⟩⟩,
  ⟨⟨22⟩, .goto, .jump ⟨5⟩⟩,
  ⟨⟨23⟩, .label, .label ⟨5⟩⟩,
  ⟨⟨24⟩, .goto, .jump ⟨4⟩⟩]⟩

theorem threads_once_circling :
    let m : Method := { detoured with code := circling, maxStack := some 1 }
    let c : PassContext := { pass := "jumps", program := { nextId := 30, methods := ⟨[(⟨2⟩, m)]⟩ } }
    let frames : Flow.Frames := ⟨#[some 0, some 1, some 0, some 1, some 0, some 0, some 0, some 0, some 0,
      some 0, some 0, some 0, some 0, some 0, some 0]⟩
    (c.program.method? ⟨2⟩ = some m ∧ (circling.toList.filterMap Instruction.label?).Nodup ∧
      (∀ i ∈ circling.toList, Code.Suited i.opcode i.operand) ∧ m.analyse.result = .ok frames) ∧
    Yields (visit ⟨2⟩) c (fun _ after => ∃ m', after.program.method? ⟨2⟩ = some m' ∧
      m'.code.toList = [
        ⟨⟨10⟩, .iconst0, .simple⟩,
        ⟨⟨11⟩, .ifEq, .jump ⟨3⟩⟩,
        ⟨⟨12⟩, .iconst0, .simple⟩,
        ⟨⟨13⟩, .ifEq, .jump ⟨2⟩⟩,
        ⟨⟨30⟩, .returnVoid, .simple⟩,
        ⟨⟨15⟩, .label, .label ⟨1⟩⟩,
        ⟨⟨31⟩, .returnVoid, .simple⟩,
        ⟨⟨17⟩, .label, .label ⟨2⟩⟩,
        ⟨⟨18⟩, .goto, .jump ⟨4⟩⟩,
        ⟨⟨19⟩, .label, .label ⟨3⟩⟩,
        ⟨⟨20⟩, .returnVoid, .simple⟩,
        ⟨⟨21⟩, .label, .label ⟨4⟩⟩,
        ⟨⟨22⟩, .goto, .jump ⟨5⟩⟩,
        ⟨⟨23⟩, .label, .label ⟨5⟩⟩,
        ⟨⟨24⟩, .goto, .jump ⟨4⟩⟩] ∧
      isPlanned (plan m'.code) m'.code = false ∧
      ∃ frames', m'.analyse.result = .ok frames' ∧
        ∀ p, frames'.isReachable p = true → frames'.height? p = frames.height? p) ∧
    Yields Pass.jumpOptimizer.run c fun _ after => ∀ next : PassContext, next.program = after.program →
      Yields Pass.jumpOptimizer.run next fun _ again => again = next := by
  intro m c frames
  have unique : (circling.toList.filterMap Instruction.label?).Nodup := by decide
  have suited : ∀ i ∈ circling.toList, Code.Suited i.opcode i.operand := by
    intro i member
    simp only [circling, List.mem_cons, List.not_mem_nil, or_false] at member
    rcases member with rfl | rfl | rfl | rfl | rfl | rfl | rfl | rfl | rfl | rfl | rfl | rfl | rfl | rfl | rfl
    all_goals first | rfl | exact .inl rfl
  have analysed : m.analyse.result = .ok frames := by decide +kernel
  obtain ⟨visits, again⟩ := threads_once c
  refine ⟨⟨rfl, unique, suited, analysed⟩, ?_, again⟩
  apply yields_mono _ c _ _ (visits ⟨2⟩ m rfl)
  intro _ after visited
  obtain ⟨m', live', code, idle, keeps⟩ := visited
  refine ⟨m', live', ?_, idle, keeps unique suited frames analysed⟩
  rw [code]
  decide +kernel

end Jumps

end JvmEdit
