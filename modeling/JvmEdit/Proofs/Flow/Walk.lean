import JvmEdit.Proofs.Flow.Moves
set_option autoImplicit false

namespace JvmEdit

namespace Flow

def Transfer.source : Transfer → Nat
  | flow source _ => source
  | exception source _ => source

namespace Walk

def height? (w : Walk) (position : Nat) : Option Nat := (w.heights[position]?).join

-- How many visits are still to come at most.
def remaining (w : Walk) : Nat := w.heights.toList.count none + w.pending.length

def settle (w : Walk) (position height : Nat) : Walk :=
  { w with
    heights := w.heights.setIfInBounds position (some height)
    pending := position :: w.pending }

theorem remaining_settle (w : Walk) (position height : Nat)
    (unsettled : w.heights[position]? = some none) :
    (w.settle position height).remaining = w.remaining := by
  have here : w.heights.toList[position]? = some none := by rw [Array.getElem?_toList, unsettled]
  obtain ⟨inside, isNone⟩ := List.getElem?_eq_some_iff.mp here
  have some_ : 0 < w.heights.toList.count none :=
    List.count_pos_iff.mpr (isNone ▸ List.getElem_mem inside)
  simp only [remaining, settle, Array.toList_setIfInBounds, List.count_set inside, isNone,
    List.length_cons]
  simp only [beq_self_eq_true, if_true, reduceBEq, Bool.false_eq_true, if_false]
  omega

-- A visit may take any pending position: `choose` picks one by looking at the whole walk so far.
def runBy [Libraries] (choose : Walk → Nat) (b : Body) : Nat → Walk → Walk × Option FlowError
  | 0, w => (w, none)
  | visits + 1, w =>
      let k := choose w % w.pending.length
      match w.pending[k]? with
      | none => (w, none)
      | some position =>
          match visit b { w with pending := w.pending.eraseIdx k } position with
          | (w', none) => runBy choose b visits w'
          | (w', some e) => (w', some e)

theorem run_eq_run_by [Libraries] (b : Body) (visits : Nat) (w : Walk) :
    run b visits w = runBy (fun _ => 0) b visits w := by
  induction visits generalizing w with
  | zero => rfl
  | succ visits ih =>
      rw [run, runBy]
      cases pending : w.pending with
      | nil => rfl
      | cons position rest =>
          dsimp only
          rw [Nat.zero_mod, List.getElem?_cons_zero, List.eraseIdx_cons_zero]
          dsimp only
          cases visited : visit b { w with pending := rest } position with
          | mk w' fault =>
              cases fault with
              | none => exact ih w'
              | some e => rfl

-- The second walk goes on from the first one: what is settled stays, and what is new is pending.
structure Grows (w w' : Walk) : Prop where
  kept : ∀ p h, w.height? p = some h → w'.height? p = some h
  fresh : ∀ p h, w'.height? p = some h → w.height? p = some h ∨ p ∈ w'.pending
  pending : ∀ p ∈ w.pending, p ∈ w'.pending
  trace : ∀ t ∈ w.trace, t ∈ w'.trace
  remaining : w'.remaining = w.remaining

theorem Grows.refl (w : Walk) : w.Grows w :=
  ⟨fun _ _ found => found, fun _ _ found => Or.inl found, fun _ member => member,
    fun _ member => member, rfl⟩

theorem Grows.trans {w w' w'' : Walk} (first : w.Grows w') (second : w'.Grows w'') :
    w.Grows w'' where
  kept := fun p h found => second.kept p h (first.kept p h found)
  fresh := fun p h found => by
    rcases second.fresh p h found with found' | isPending
    · rcases first.fresh p h found' with old | isPending
      · exact Or.inl old
      · exact Or.inr (second.pending p isPending)
    · exact Or.inr isPending
  pending := fun p member => second.pending p (first.pending p member)
  trace := fun t member => second.trace t (first.trace t member)
  remaining := second.remaining.trans first.remaining

theorem height?_settle (w : Walk) (position height : Nat) (inside : position < w.heights.size)
    (p : Nat) : (w.settle position height).height? p =
      if position = p then some height else w.height? p := by
  simp only [height?, settle, Array.getElem?_setIfInBounds]
  by_cases same : position = p
  · simp [same, same ▸ inside]
  · simp [same]

section Settle

variable (w : Walk) (position height : Nat) (unsettled : w.heights[position]? = some none)

include unsettled

theorem inside_of_unsettled : position < w.heights.size :=
  (Array.getElem?_eq_some_iff.mp unsettled).1

theorem height?_unsettled : w.height? position = none := by
  rw [height?, unsettled]
  rfl

theorem grows_settle : w.Grows (w.settle position height) where
  kept := fun p h found => by
    rw [height?_settle w position height (inside_of_unsettled w position unsettled), if_neg]
    · exact found
    · rintro rfl
      rw [height?_unsettled w position unsettled] at found
      cases found
  fresh := fun p h found => by
    rw [height?_settle w position height (inside_of_unsettled w position unsettled)] at found
    split at found
    · rename_i same
      exact Or.inr (same ▸ List.mem_cons_self)
    · exact Or.inl found
  pending := fun _ member => List.mem_cons_of_mem _ member
  trace := fun _ member => member
  remaining := remaining_settle w position height unsettled

end Settle

theorem arrive_cases (w : Walk) (position height : Nat) :
    (w.heights[position]? = some none ∧ (w.arrive position height).1 = w.settle position height) ∨
      (w.arrive position height).1 = w := by
  unfold arrive
  split
  · rename_i unsettled
    exact .inl ⟨unsettled, rfl⟩
  · split
    · exact .inr rfl
    · exact .inr rfl
  · exact .inr rfl

theorem trace_arrive (w : Walk) (position height : Nat) : (w.arrive position height).1.trace = w.trace := by
  rcases w.arrive_cases position height with ⟨_, settles⟩ | same
  · rw [settles]
    rfl
  · rw [same]

theorem trace_follow (w : Walk) (moves : List Move) :
    ∃ noted, noted <+: moves.map Move.transfer ∧ (w.follow moves).1.trace = noted.reverse ++ w.trace ∧
      ((w.follow moves).2 = none → noted = moves.map Move.transfer) := by
  induction moves generalizing w with
  | nil => exact ⟨[], List.prefix_rfl, rfl, fun _ => rfl⟩
  | cons m moves ih =>
      have noted := trace_arrive { w with trace := m.transfer :: w.trace } m.transfer.target m.height
      rw [follow, List.map_cons]
      split
      · rename_i next arrived
        rw [arrived] at noted
        obtain ⟨later, part, trace, all⟩ := ih next
        refine ⟨m.transfer :: later, List.cons_prefix_cons.mpr ⟨rfl, part⟩, ?_, fun clean => ?_⟩
        · rw [trace, noted, List.reverse_cons, List.append_assoc]
          rfl
        · rw [all clean]
      · rename_i next e arrived
        rw [arrived] at noted
        refine ⟨[m.transfer], List.cons_prefix_cons.mpr ⟨rfl, List.nil_prefix⟩, noted, ?_⟩
        intro clean
        cases clean

-- Before anything is settled.
def empty (size : Nat) : Walk := ⟨Array.replicate size none, [], []⟩

theorem unsettled_empty (size : Nat) (positive : 0 < size) :
    (empty size).heights[0]? = some none := by
  rw [empty, Array.getElem?_replicate, if_pos positive]

theorem height?_empty (size p : Nat) : (empty size).height? p = none := by
  simp only [height?, empty, Array.getElem?_replicate]
  split <;> rfl

end Walk

section Source

variable (code : List Instruction) (ranges : List TryRange) (limit : Option UInt16)

-- Everything in the walk comes from paths.
structure Walk.Valid [Libraries] (w : Walk) : Prop where
  size : w.heights.size = code.length
  settled : ∀ p ∈ w.pending, ∃ h, w.height? p = some h
  nodup : w.pending.Nodup
  reached : ∀ p h, w.height? p = some h → Reaches code ranges limit ⟨p, h⟩
  traced : ∀ t ∈ w.trace, ∃ c m, Reaches code ranges limit c ∧ Takes code ranges limit c m ∧
    m.transfer = t

-- The walk has nothing left to do at a position.
structure Walk.Done [Libraries] (w : Walk) (position height : Nat) : Prop where
  faultless : ¬Faulty code limit ⟨position, height⟩
  followed : ∀ m, Takes code ranges limit ⟨position, height⟩ m →
    w.height? m.transfer.target = some m.height ∧ m.transfer ∈ w.trace

structure Walk.Explores [Libraries] (w : Walk) : Prop extends w.Valid code ranges limit where
  start : w.height? 0 = some 0
  done : ∀ p h, w.height? p = some h → p ∈ w.pending ∨ w.Done code ranges limit p h

-- Two paths come to one position with different heights.
def Clash [Libraries] : Prop :=
  ∃ position height height', height ≠ height' ∧ Reaches code ranges limit ⟨position, height⟩ ∧
    Reaches code ranges limit ⟨position, height'⟩

end Source

section Paths

variable {code : List Instruction} {ranges : List TryRange} {limit : Option UInt16}

theorem Takes.reaches [Libraries] {c : Config} {m : Move} (takes : Takes code ranges limit c m)
    (reaches : Reaches code ranges limit c) :
    Reaches code ranges limit ⟨m.transfer.target, m.height⟩ := by
  obtain ⟨transfer, height⟩ := m
  cases transfer with
  | flow source target => exact ⟨reaches.1, reaches.2.tail (Or.inl takes.2)⟩
  | exception source handler => exact ⟨reaches.1, reaches.2.tail (Or.inr takes.2)⟩

theorem Steps.inside [Libraries] {c d : Config} (steps : Steps code ranges limit c d) :
    d.position < code.length := by
  rcases steps with flows | raises
  · cases flows with
    | target _ _ _ stands => exact stands.1.inside
    | next _ _ _ _ inside => exact inside
    | comeBack _ _ _ inside => exact inside
  · cases raises with
    | handler _ _ _ enters _ _ => exact enters.1.inside

theorem Reaches.inside [Libraries] {c : Config} (reaches : Reaches code ranges limit c) :
    c.position < code.length := by
  rcases reaches.2.cases_tail with start | ⟨d, _, steps⟩
  · rw [start]
    exact List.length_pos_iff.mpr reaches.1
  · exact steps.inside

theorem Clash.inconsistent [Libraries] (clash : Clash code ranges limit) :
    ¬Consistent code ranges limit := by
  obtain ⟨position, height, height', differ, reaches, reaches'⟩ := clash
  exact fun consistent => differ (consistent.heights position height height' reaches reaches')

theorem Walk.arrive_some [Libraries] (w w' : Walk) (position height : Nat) (e : FlowError)
    (valid : w.Valid code ranges limit) (reaches : Reaches code ranges limit ⟨position, height⟩)
    (refused : w.arrive position height = (w', some e)) : Clash code ranges limit := by
  unfold Walk.arrive at refused
  split at refused
  · cases refused
  · rename_i settled found
    split at refused
    · cases refused
    · rename_i differ
      have known : w.height? position = some settled := by rw [Walk.height?, found]; rfl
      exact ⟨position, settled, height, differ, valid.reached position settled known, reaches⟩
  · cases refused

theorem Walk.valid_empty [Libraries] : (Walk.empty code.length).Valid code ranges limit where
  size := Array.size_replicate
  settled := fun p member => by cases member
  nodup := List.nodup_nil
  reached := fun p h found => by
    rw [Walk.height?_empty] at found
    cases found
  traced := fun t member => by cases member

theorem Walk.valid_settle [Libraries] (w : Walk) (position height : Nat)
    (valid : w.Valid code ranges limit) (reaches : Reaches code ranges limit ⟨position, height⟩)
    (unsettled : w.heights[position]? = some none) :
    (w.settle position height).Valid code ranges limit := by
  have settle := w.height?_settle position height (w.inside_of_unsettled position unsettled)
  have grows := w.grows_settle position height unsettled
  refine ⟨?_, ?_, ?_, ?_, valid.traced⟩
  · rw [Walk.settle, Array.size_setIfInBounds, valid.size]
  · intro p member
    rcases List.mem_cons.mp member with rfl | old
    · exact ⟨height, by rw [settle, if_pos rfl]⟩
    · obtain ⟨h, found⟩ := valid.settled p old
      exact ⟨h, grows.kept p h found⟩
  · refine List.nodup_cons.mpr ⟨fun member => ?_, valid.nodup⟩
    obtain ⟨h, found⟩ := valid.settled position member
    rw [w.height?_unsettled position unsettled] at found
    cases found
  · intro p h found
    rw [settle] at found
    split at found
    · rename_i same
      cases found
      exact same ▸ reaches
    · exact valid.reached p h found

theorem Walk.arrive_none [Libraries] (w w' : Walk) (position height : Nat)
    (valid : w.Valid code ranges limit) (reaches : Reaches code ranges limit ⟨position, height⟩)
    (arrived : w.arrive position height = (w', none)) :
    w'.Valid code ranges limit ∧ w.Grows w' ∧ w'.height? position = some height := by
  have inside : position < w.heights.size := valid.size ▸ reaches.inside
  unfold Walk.arrive at arrived
  split at arrived
  · rename_i unsettled
    cases arrived
    exact ⟨w.valid_settle position height valid reaches unsettled,
      w.grows_settle position height unsettled,
      (w.height?_settle position height inside position).trans (if_pos rfl)⟩
  · rename_i settled found
    split at arrived
    · rename_i same
      cases arrived
      exact ⟨valid, .refl w, by rw [Walk.height?, found, same]; rfl⟩
    · cases arrived
  · rename_i outside
    exact absurd inside (Nat.not_lt.mpr (Array.getElem?_eq_none_iff.mp outside))

-- Moves are steps from reached configurations.
def Sourced [Libraries] (code : List Instruction) (ranges : List TryRange) (limit : Option UInt16)
    (m : Move) : Prop := ∃ c, Reaches code ranges limit c ∧ Takes code ranges limit c m

theorem Walk.valid_trace [Libraries] (w : Walk) (m : Move) (valid : w.Valid code ranges limit)
    (sourced : Sourced code ranges limit m) :
    ({ w with trace := m.transfer :: w.trace } : Walk).Valid code ranges limit :=
  { valid with
    traced := fun t member => by
      rcases List.mem_cons.mp member with rfl | old
      · obtain ⟨c, reaches, takes⟩ := sourced
        exact ⟨c, m, reaches, takes, rfl⟩
      · exact valid.traced t old }

theorem Walk.follow_some [Libraries] (w w' : Walk) (moves : List Move) (e : FlowError)
    (valid : w.Valid code ranges limit) (sourced : ∀ m ∈ moves, Sourced code ranges limit m)
    (refused : w.follow moves = (w', some e)) : Clash code ranges limit := by
  induction moves generalizing w with
  | nil => cases refused
  | cons m moves ih =>
      have first := sourced m List.mem_cons_self
      have valid' := w.valid_trace m valid first
      obtain ⟨c, reaches, takes⟩ := first
      have reached := takes.reaches reaches
      rw [Walk.follow] at refused
      split at refused
      · rename_i next arrived
        have grown := Walk.arrive_none _ next _ _ valid' reached arrived
        exact ih next grown.1 (fun m member => sourced m (List.mem_cons_of_mem _ member)) refused
      · rename_i next e' arrived
        exact Walk.arrive_some _ next _ _ e' valid' reached arrived

theorem Walk.follow_none [Libraries] (w w' : Walk) (moves : List Move)
    (valid : w.Valid code ranges limit) (sourced : ∀ m ∈ moves, Sourced code ranges limit m)
    (followed : w.follow moves = (w', none)) :
    w'.Valid code ranges limit ∧ w.Grows w' ∧
      ∀ m ∈ moves, w'.height? m.transfer.target = some m.height ∧ m.transfer ∈ w'.trace := by
  induction moves generalizing w with
  | nil =>
      cases followed
      exact ⟨valid, .refl _, fun _ member => by cases member⟩
  | cons m moves ih =>
      have first := sourced m List.mem_cons_self
      have valid' := w.valid_trace m valid first
      have noted : w.Grows { w with trace := m.transfer :: w.trace } :=
        ⟨fun _ _ found => found, fun _ _ found => Or.inl found, fun _ member => member,
          fun _ member => List.mem_cons_of_mem _ member, rfl⟩
      obtain ⟨c, reaches, takes⟩ := first
      rw [Walk.follow] at followed
      split at followed
      · rename_i next arrived
        obtain ⟨validNext, grows, settled⟩ :=
          Walk.arrive_none _ next _ _ valid' (takes.reaches reaches) arrived
        obtain ⟨validLast, growsLast, rest⟩ :=
          ih next validNext (fun m member => sourced m (List.mem_cons_of_mem _ member)) followed
        refine ⟨validLast, (noted.trans grows).trans growsLast, fun other member => ?_⟩
        rcases List.mem_cons.mp member with rfl | later
        · exact ⟨growsLast.kept _ _ settled,
            growsLast.trace _ (grows.trace _ List.mem_cons_self)⟩
        · exact rest other later
      · cases followed

theorem Walk.Done.grows [Libraries] {w w' : Walk} {position height : Nat}
    (done : w.Done code ranges limit position height) (grows : w.Grows w') :
    w'.Done code ranges limit position height :=
  ⟨done.faultless, fun m takes =>
    ⟨grows.kept _ _ (done.followed m takes).1, grows.trace _ (done.followed m takes).2⟩⟩

theorem Walk.Valid.take [Libraries] {w : Walk} (valid : w.Valid code ranges limit) (k : Nat) :
    ({ w with pending := w.pending.eraseIdx k } : Walk).Valid code ranges limit :=
  { valid with
    settled := fun p member => valid.settled p (List.mem_of_mem_eraseIdx member)
    nodup := valid.nodup.eraseIdx k }

theorem Walk.visit_eq [Libraries] (b : Body) (w : Walk) (position height : Nat) (i : Instruction)
    (settled : w.height? position = some height) (here : b.code[position]? = some i) :
    w.visit b position =
      match w.follow (b.moves position height i).1 with
      | (w', some e) => (w', some e)
      | (w', none) => (w', (b.moves position height i).2) := by
  rw [Walk.height?] at settled
  rewrite [Walk.visit, settled, here]
  rfl

theorem Reaches.instruction [Libraries] {c : Config} (reaches : Reaches code ranges limit c) :
    ∃ i, code[c.position]? = some i :=
  ⟨_, List.getElem?_eq_getElem reaches.inside⟩

variable {b : Body} (of : b.Of code ranges limit)

include of

theorem Body.Of.sourced [Libraries] (position height : Nat) (i : Instruction)
    (here : code[position]? = some i) (reaches : Reaches code ranges limit ⟨position, height⟩) :
    ∀ m ∈ (b.moves position height i).1, Sourced code ranges limit m := by
  intro m member
  cases fault : (b.moves position height i).2 with
  | none => exact ⟨_, reaches, ((of.moves_none position height i here fault).2 m).mp member⟩
  | some e => exact ⟨_, reaches, (of.moves_some position height i e here fault).2 m member⟩

theorem Walk.visit_some [Libraries] (w w' : Walk) (position height : Nat) (e : FlowError)
    (valid : w.Valid code ranges limit) (settled : w.height? position = some height)
    (refused : w.visit b position = (w', some e)) : ¬Consistent code ranges limit := by
  have reaches := valid.reached position height settled
  obtain ⟨i, here⟩ := reaches.instruction
  have sourced := of.sourced position height i here reaches
  rw [Walk.visit_eq b w position height i settled ((of.at position).trans here)] at refused
  split at refused
  · rename_i next e' followed
    exact (Walk.follow_some w next _ e' valid sourced followed).inconsistent
  · intro consistent
    have fault : (b.moves position height i).2 = some e := congrArg Prod.snd refused
    exact consistent.faultless _ reaches (of.moves_some position height i e here fault).1

theorem Walk.visit_none [Libraries] (w w' : Walk) (position height : Nat)
    (valid : w.Valid code ranges limit) (settled : w.height? position = some height)
    (visited : w.visit b position = (w', none)) :
    w'.Valid code ranges limit ∧ w.Grows w' ∧ w'.Done code ranges limit position height := by
  have reaches := valid.reached position height settled
  obtain ⟨i, here⟩ := reaches.instruction
  have sourced := of.sourced position height i here reaches
  rw [Walk.visit_eq b w position height i settled ((of.at position).trans here)] at visited
  split at visited
  · cases visited
  · rename_i next followed
    have fault : (b.moves position height i).2 = none := congrArg Prod.snd visited
    obtain rfl : next = w' := congrArg Prod.fst visited
    obtain ⟨faultless, all⟩ := of.moves_none position height i here fault
    obtain ⟨validNext, grows, followedAll⟩ := Walk.follow_none w next _ valid sourced followed
    exact ⟨validNext, grows, faultless, fun m takes => followedAll m ((all m).mpr takes)⟩

theorem Walk.explores_visit [Libraries] (w w' : Walk) (k position : Nat)
    (explores : w.Explores code ranges limit) (taken : w.pending[k]? = some position)
    (visited : ({ w with pending := w.pending.eraseIdx k } : Walk).visit b position = (w', none)) :
    w'.Explores code ranges limit ∧ w'.remaining + 1 = w.remaining := by
  obtain ⟨inside, isTaken⟩ := List.getElem?_eq_some_iff.mp taken
  obtain ⟨height, settled⟩ := explores.settled position (isTaken ▸ List.getElem_mem inside)
  have valid := explores.take k
  obtain ⟨validNext, grows, done⟩ := Walk.visit_none of _ w' position height valid settled visited
  refine ⟨{ validNext with start := grows.kept 0 0 explores.start, done := fun p h found => ?_ }, ?_⟩
  · rcases grows.fresh p h found with old | isPending
    · rcases explores.done p h old with waiting | finished
      · obtain ⟨j, isThere⟩ := List.mem_iff_getElem?.mp waiting
        by_cases same : j = k
        · subst same
          cases taken.symm.trans isThere
          cases settled.symm.trans old
          exact Or.inr done
        · exact Or.inl (grows.pending p (List.mem_eraseIdx_iff_getElem?.mpr ⟨j, same, isThere⟩))
      · have before : ({ w with pending := w.pending.eraseIdx k } : Walk).Done code ranges limit p h :=
          ⟨finished.faultless, finished.followed⟩
        exact Or.inr (before.grows grows)
    · exact Or.inl isPending
  · have shorter := List.length_eraseIdx_of_lt inside
    rw [grows.remaining]
    simp only [Walk.remaining, shorter]
    omega

theorem Walk.run_by_some [Libraries] (choose : Walk → Nat) (visits : Nat) (w w' : Walk) (e : FlowError)
    (explores : w.Explores code ranges limit) (refused : w.runBy choose b visits = (w', some e)) :
    ¬Consistent code ranges limit := by
  induction visits generalizing w with
  | zero => cases refused
  | succ visits ih =>
      rw [Walk.runBy] at refused
      split at refused
      · cases refused
      · rename_i position taken
        split at refused
        · rename_i next visited
          exact ih next (Walk.explores_visit of w next _ position explores taken visited).1 refused
        · rename_i next e' visited
          obtain ⟨inside, isTaken⟩ := List.getElem?_eq_some_iff.mp taken
          obtain ⟨height, settled⟩ := explores.settled position (isTaken ▸ List.getElem_mem inside)
          exact Walk.visit_some of _ next position height e' (explores.take _) settled visited

theorem Walk.run_by_none [Libraries] (choose : Walk → Nat) (visits : Nat) (w w' : Walk)
    (explores : w.Explores code ranges limit) (enough : w.remaining ≤ visits)
    (finished : w.runBy choose b visits = (w', none)) :
    w'.Explores code ranges limit ∧ w'.pending = [] := by
  induction visits generalizing w with
  | zero =>
      cases finished
      refine ⟨explores, List.length_eq_zero_iff.mp ?_⟩
      simp only [Walk.remaining] at enough
      omega
  | succ visits ih =>
      rw [Walk.runBy] at finished
      split at finished
      · rename_i none
        cases finished
        refine ⟨explores, ?_⟩
        by_contra some
        have positive := List.length_pos_iff.mpr some
        exact absurd (Nat.mod_lt _ positive) (Nat.not_lt.mpr (List.getElem?_eq_none_iff.mp none))
      · rename_i position taken
        split at finished
        · rename_i next visited
          obtain ⟨exploresNext, fewer⟩ :=
            Walk.explores_visit of w next _ position explores taken visited
          exact ih next exploresNext (by omega) finished
        · cases finished

end Paths

end Flow

end JvmEdit
