import JvmEdit.Libraries.Standard
import JvmEdit.Proofs.Flow.Walk
set_option autoImplicit false

namespace JvmEdit

namespace Flow

-- An analysis that may visit any pending position next.
def Body.analyseBy [Libraries] (choose : Walk → Nat) (b : Body) : Analysis :=
  let (w, fault) := Walk.runBy choose b b.size b.start
  ⟨w.trace.reverse, match fault with
    | some e => .error e
    | none => .ok ⟨w.heights⟩⟩

def analyseBy [Libraries] (choose : Walk → Nat) (code : Stream) (ranges : List TryRange)
    (limit : Option UInt16) : Analysis :=
  if code.isEmpty then ⟨[], .ok ⟨#[]⟩⟩
  else
    match body? code.toList ranges limit with
    | .error e => ⟨[], .error e⟩
    | .ok b => b.analyseBy choose

theorem analyse_eq [Libraries] (code : Stream) (ranges : List TryRange) (limit : Option UInt16) :
    analyse code ranges limit = analyseBy (fun _ => 0) code ranges limit := by
  have body : ∀ b : Body, b.analyse = b.analyseBy fun _ => 0 := fun b => by
    rewrite [Body.analyse, Body.analyseBy, Walk.run_eq_run_by]
    rfl
  unfold analyse analyseBy body?
  dsimp only
  split
  · rfl
  · cases handlers (labelTable code.toList) ranges with
    | error e => rfl
    | ok handlers => exact body _

section Source

variable {code : List Instruction} {ranges : List TryRange} {limit : Option UInt16}

theorem Walk.Explores.closed [Libraries] {w : Walk} (explores : w.Explores code ranges limit)
    (finished : w.pending = []) (c : Config) (reaches : Reaches code ranges limit c) :
    w.height? c.position = some c.height ∧ w.Done code ranges limit c.position c.height := by
  have done : ∀ p h, w.height? p = some h → w.Done code ranges limit p h := by
    intro p h found
    rcases explores.done p h found with waiting | done
    · rw [finished] at waiting
      cases waiting
    · exact done
  obtain ⟨nonempty, path⟩ := reaches
  have found : w.height? c.position = some c.height := by
    induction path with
    | refl => exact explores.start
    | @tail before after _ steps ih =>
        have followed := (done before.position before.height ih).followed
        rcases steps with flows | raises
        · exact (followed ⟨.flow before.position after.position, after.height⟩ ⟨rfl, flows⟩).1
        · exact (followed ⟨.exception before.position after.position, after.height⟩ ⟨rfl, raises⟩).1
  exact ⟨found, done c.position c.height found⟩

theorem Walk.Explores.height?_iff [Libraries] {w : Walk} (explores : w.Explores code ranges limit)
    (finished : w.pending = []) (position height : Nat) :
    w.height? position = some height ↔ Reaches code ranges limit ⟨position, height⟩ :=
  ⟨explores.reached position height, fun reaches =>
    (explores.closed finished ⟨position, height⟩ reaches).1⟩

theorem Walk.heights_ext {w w' : Walk} (size : w.heights.size = w'.heights.size)
    (agree : ∀ p, w.height? p = w'.height? p) : w.heights = w'.heights := by
  refine Array.ext size fun p inside inside' => ?_
  have same := agree p
  simpa [Walk.height?, inside, inside'] using same

theorem Walk.Explores.unique [Libraries] {w w' : Walk} (explores : w.Explores code ranges limit)
    (finished : w.pending = []) (explores' : w'.Explores code ranges limit)
    (finished' : w'.pending = []) : w.heights = w'.heights := by
  refine Walk.heights_ext (explores.size.trans explores'.size.symm) fun p => Option.ext fun h => ?_
  rw [explores.height?_iff finished, explores'.height?_iff finished']

theorem Walk.Explores.consistent [Libraries] {w : Walk} (explores : w.Explores code ranges limit)
    (finished : w.pending = []) (labels : ∀ range ∈ ranges,
      ∀ label ∈ [range.start, range.stop, range.handler], ∃ position, Marks code position label) :
    Consistent code ranges limit where
  labels := labels
  faultless := fun c reaches => (explores.closed finished c reaches).2.faultless
  heights := fun position height height' reaches reaches' => by
    have found := (explores.height?_iff finished position height).mpr reaches
    rw [(explores.height?_iff finished position height').mpr reaches'] at found
    exact (Option.some.inj found).symm

variable {b : Body} (of : b.Of code ranges limit)

include of

theorem Body.Of.start_eq : b.start = (Walk.empty code.length).settle 0 0 := by
  rw [← of.size]
  rfl

theorem Body.Of.explores_start [Libraries] (nonempty : code ≠ []) :
    b.start.Explores code ranges limit := by
  have unsettled := Walk.unsettled_empty code.length (List.length_pos_iff.mpr nonempty)
  rw [of.start_eq]
  refine ⟨Walk.valid_settle _ 0 0 Walk.valid_empty ⟨nonempty, .refl⟩ unsettled, ?_, ?_⟩
  · exact (Walk.height?_settle _ 0 0 (Walk.inside_of_unsettled _ 0 unsettled) 0).trans (if_pos rfl)
  · intro p h found
    rcases (Walk.grows_settle _ 0 0 unsettled).fresh p h found with old | isPending
    · rw [Walk.height?_empty] at old
      cases old
    · exact Or.inl isPending

theorem Body.Of.remaining_start (nonempty : code ≠ []) : b.start.remaining ≤ b.size := by
  have unsettled := Walk.unsettled_empty code.length (List.length_pos_iff.mpr nonempty)
  rw [of.start_eq, Walk.remaining_settle _ 0 0 unsettled, of.size]
  simp [Walk.remaining, Walk.empty]

theorem Body.Of.analyse_by_error [Libraries] (choose : Walk → Nat) (nonempty : code ≠ []) (e : FlowError)
    (refused : (b.analyseBy choose).result = .error e) : ¬Consistent code ranges limit := by
  cases ran : Walk.runBy choose b b.size b.start with
  | mk w fault =>
      rw [Body.analyseBy, ran] at refused
      cases fault with
      | none => cases refused
      | some e' => exact Walk.run_by_some of choose b.size b.start w e' (of.explores_start nonempty) ran

theorem Body.Of.analyse_by_ok [Libraries] (choose : Walk → Nat) (nonempty : code ≠ []) (frames : Frames)
    (accepted : (b.analyseBy choose).result = .ok frames) : ∃ w : Walk, frames = ⟨w.heights⟩ ∧
      (b.analyseBy choose).trace = w.trace.reverse ∧ w.Explores code ranges limit ∧
        w.pending = [] := by
  cases ran : Walk.runBy choose b b.size b.start with
  | mk w fault =>
      rw [Body.analyseBy, ran] at accepted ⊢
      cases fault with
      | some e => cases accepted
      | none =>
          cases accepted
          exact ⟨w, rfl, rfl, Walk.run_by_none of choose b.size b.start w
            (of.explores_start nonempty) (of.remaining_start nonempty) ran⟩

end Source

theorem analyse_by_ok [Libraries] (choose : Walk → Nat) (code : Stream) (ranges : List TryRange)
    (limit : Option UInt16) (nonempty : code.toList ≠ []) (frames : Frames)
    (accepted : (analyseBy choose code ranges limit).result = .ok frames) :
    Consistent code.toList ranges limit ∧ ∃ w : Walk, frames = ⟨w.heights⟩ ∧
      (analyseBy choose code ranges limit).trace = w.trace.reverse ∧
        w.Explores code.toList ranges limit ∧ w.pending = [] := by
  have code_ : ¬code.isEmpty = true := by simpa [Stream.isEmpty] using nonempty
  unfold analyseBy at accepted ⊢
  rw [if_neg code_] at accepted ⊢
  cases made : body? code.toList ranges limit with
  | error e =>
      rw [made] at accepted
      cases accepted
  | ok b =>
      rw [made] at accepted
      obtain ⟨w, isFrames, trace, explores, finished⟩ :=
        (body?_ok made).analyse_by_ok choose nonempty frames accepted
      exact ⟨explores.consistent finished (body?_labels made), w, isFrames, trace, explores, finished⟩

theorem analyse_by_error [Libraries] (choose : Walk → Nat) (code : Stream) (ranges : List TryRange)
    (limit : Option UInt16) (e : FlowError)
    (refused : (analyseBy choose code ranges limit).result = .error e) :
    code.toList ≠ [] ∧ ¬Consistent code.toList ranges limit := by
  unfold analyseBy at refused
  split at refused
  · cases refused
  · rename_i code_
    have nonempty : code.toList ≠ [] := by simpa [Stream.isEmpty] using code_
    refine ⟨nonempty, ?_⟩
    cases made : body? code.toList ranges limit with
    | error e' => exact body?_error made
    | ok b =>
        rw [made] at refused
        exact (body?_ok made).analyse_by_error choose nonempty e refused

theorem analyse_by_empty [Libraries] (choose : Walk → Nat) (code : Stream) (ranges : List TryRange)
    (limit : Option UInt16) (empty : code.toList = []) :
    analyseBy choose code ranges limit = ⟨[], .ok ⟨#[]⟩⟩ := by
  rw [analyseBy, if_pos (by simpa [Stream.isEmpty] using empty)]

theorem height?_analyse_by [Libraries] (choose : Walk → Nat) (code : Stream) (ranges : List TryRange)
    (limit : Option UInt16) (frames : Frames)
    (accepted : (analyseBy choose code ranges limit).result = .ok frames) (position height : Nat) :
    frames.height? position = some height ↔ Reaches code.toList ranges limit ⟨position, height⟩ := by
  by_cases empty : code.toList = []
  · rw [analyse_by_empty choose code ranges limit empty] at accepted
    cases accepted
    simp [Frames.height?, Reaches, empty]
  · obtain ⟨_, w, rfl, _, explores, finished⟩ :=
      analyse_by_ok choose code ranges limit empty frames accepted
    exact explores.height?_iff finished position height

theorem result_analyse_by [Libraries] (choose choose' : Walk → Nat) (code : Stream)
    (ranges : List TryRange)
    (limit : Option UInt16) : (analyseBy choose code ranges limit).result.toOption =
      (analyseBy choose' code ranges limit).result.toOption := by
  by_cases empty : code.toList = []
  · rw [analyse_by_empty choose code ranges limit empty, analyse_by_empty choose' code ranges limit empty]
  · cases result : (analyseBy choose code ranges limit).result with
    | ok frames =>
        obtain ⟨consistent, w, rfl, _, explores, finished⟩ :=
          analyse_by_ok choose code ranges limit empty frames result
        cases result' : (analyseBy choose' code ranges limit).result with
        | ok frames' =>
            obtain ⟨_, w', rfl, _, explores', finished'⟩ :=
              analyse_by_ok choose' code ranges limit empty frames' result'
            rw [explores.unique finished explores' finished']
        | error e =>
            exact absurd consistent (analyse_by_error choose' code ranges limit e result').2
    | error e =>
        have inconsistent := (analyse_by_error choose code ranges limit e result).2
        cases result' : (analyseBy choose' code ranges limit).result with
        | ok frames' =>
            exact absurd (analyse_by_ok choose' code ranges limit empty frames' result').1 inconsistent
        | error e' => rfl

theorem accepted_iff [Libraries] (code : Stream) (ranges : List TryRange) (limit : Option UInt16) :
    (∃ frames, (analyse code ranges limit).result = .ok frames) ↔
      code.toList = [] ∨ Consistent code.toList ranges limit := by
  rw [analyse_eq]
  refine ⟨?_, ?_⟩
  · rintro ⟨frames, accepted⟩
    by_cases empty : code.toList = []
    · exact Or.inl empty
    · exact Or.inr (analyse_by_ok _ code ranges limit empty frames accepted).1
  · intro good
    cases result : (analyseBy (fun _ => 0) code ranges limit).result with
    | ok frames => exact ⟨frames, rfl⟩
    | error e =>
        obtain ⟨nonempty, inconsistent⟩ := analyse_by_error _ code ranges limit e result
        exact absurd good (not_or.mpr ⟨nonempty, inconsistent⟩)

theorem height?_analyse [Libraries] (code : Stream) (ranges : List TryRange) (limit : Option UInt16)
    (frames : Frames)
    (accepted : (analyse code ranges limit).result = .ok frames) (position height : Nat) :
    frames.height? position = some height ↔ Reaches code.toList ranges limit ⟨position, height⟩ := by
  rw [analyse_eq] at accepted
  exact height?_analyse_by _ code ranges limit frames accepted position height

-- An analysis accepts exactly empty code and consistent bodies, its heights are exactly those that
-- paths arrive with, and with any other choice among the pending positions it comes to the same.
theorem analyse_exact [Libraries] (code : Stream) (ranges : List TryRange) (limit : Option UInt16) :
    ((∃ frames, (analyse code ranges limit).result = .ok frames) ↔
      code.toList = [] ∨ Consistent code.toList ranges limit) ∧
    (∀ frames, (analyse code ranges limit).result = .ok frames → ∀ position height,
      frames.height? position = some height ↔
        Reaches code.toList ranges limit ⟨position, height⟩) ∧
    ∀ choose, (analyseBy choose code ranges limit).result.toOption =
      (analyse code ranges limit).result.toOption := by
  refine ⟨accepted_iff code ranges limit, height?_analyse code ranges limit, fun choose => ?_⟩
  rw [analyse_eq]
  exact result_analyse_by choose _ code ranges limit

-- A loop through a handler, with a subroutine that is called from inside the protected range.
def guardedLoop : Stream :=
  ⟨[⟨⟨1⟩, 0xff, .label ⟨1⟩⟩, ⟨⟨2⟩, 0x03, .simple⟩, ⟨⟨3⟩, 0x99, .jump ⟨2⟩⟩, ⟨⟨4⟩, 0xa8, .jump ⟨3⟩⟩,
    ⟨⟨5⟩, 0xff, .label ⟨2⟩⟩, ⟨⟨6⟩, 0xb1, .simple⟩, ⟨⟨7⟩, 0xff, .label ⟨3⟩⟩, ⟨⟨8⟩, 0x3a, .var 1⟩,
    ⟨⟨9⟩, 0xa9, .var 1⟩, ⟨⟨10⟩, 0xff, .label ⟨4⟩⟩, ⟨⟨11⟩, 0x57, .simple⟩, ⟨⟨12⟩, 0xa7, .jump ⟨1⟩⟩]⟩

def guardedRange : List TryRange := [⟨⟨1⟩, ⟨2⟩, ⟨4⟩, none⟩]

theorem analyse_exact_guarded_loop :
    (analyse guardedLoop guardedRange (some 1)).result = .ok ⟨#[some 0, some 0, some 1, some 0, some 0,
      some 0, some 1, some 1, some 0, some 1, some 1, some 0]⟩ ∧
    Reaches guardedLoop.toList guardedRange (some 1) ⟨10, 1⟩ ∧
    ¬Reaches guardedLoop.toList guardedRange (some 1) ⟨4, 1⟩ := by
  have accepted : (analyse guardedLoop guardedRange (some 1)).result = .ok ⟨#[some 0, some 0, some 1,
      some 0, some 0, some 0, some 1, some 1, some 0, some 1, some 1, some 0]⟩ := by
    decide +kernel
  have heights := (analyse_exact guardedLoop guardedRange (some 1)).2.1 _ accepted
  exact ⟨accepted, (heights 10 1).mp rfl, fun reaches => by cases (heights 4 1).mpr reaches⟩

end Flow

end JvmEdit
