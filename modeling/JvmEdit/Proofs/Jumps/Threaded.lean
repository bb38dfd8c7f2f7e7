import JvmEdit.Libraries.Standard
import JvmEdit.Proofs.Jumps.Planned
import JvmEdit.Proofs.Pass.Run
import JvmEdit.Proofs.Program.Edits
set_option autoImplicit false

namespace JvmEdit

namespace Jumps

open JvmEdit.Flow (Marks)

-- An instruction that stays, its targets aside.
structure Survives (i i' : Instruction) : Prop where
  identity : i'.id = i.id
  opcode : i'.opcode = i.opcode

-- A return with a new identity.
structure Inserted (next : Nat) (opcode : Opcode) (i : Instruction) : Prop where
  returns : opcode.isReturn = true
  opcode : i.opcode = opcode
  operand : i.operand = .simple
  fresh : next ≤ i.id.val

-- Control that came to the old instruction at `q` comes to the new one at `q'`.
inductive Answers (code code' : List Instruction) (next : Nat) (q q' : Nat) : Prop
  | survives {i i' : Instruction} (before : code[q]? = some i) (after : code'[q']? = some i')
      (place : q' = q) (survives : Survives i i')
  | returns {i i' : Instruction} (before : code[q]? = some i) (after : code'[q']? = some i')
      (inserted : Inserted next i.opcode i')

-- How control can leave an instruction: to the one behind it, to the target of a jump, or to what a
-- switch has for a key.
inductive Way
  | behind
  | jump
  | key (value : Int32)

-- The label that an instruction names for a way.
def Way.label? (way : Way) (i : Instruction) : Option LabelId :=
  match way, i.operand with
  | .jump, .jump label => some label
  | .key value, .switch otherwise cases => some ((cases.lookup value).getD otherwise)
  | _, _ => none

-- Where control settles that leaves the instruction at a position.
inductive Leaves (code : List Instruction) (p : Nat) (way : Way) (q : Nat) : Prop
  | behind {i : Instruction} (here : code[p]? = some i) (on : way = .behind) (continues : i.continues = true)
      (settles : Settles code (p + 1) q)
  | sent {i : Instruction} {label : LabelId} (here : code[p]? = some i) (goes : way.label? i = some label)
      (settles : SettlesAt code label q)

-- Control settles afterwards exactly if it did before, and there at what answers.
structure Agree (code code' : List Instruction) (next : Nat) (before after : Nat → Prop) : Prop where
  onward : ∀ q, before q → ∃ q', after q' ∧ Answers code code' next q q'
  back : ∀ q', after q' → ∃ q, before q ∧ Answers code code' next q q'

structure KeepsControl (code code' : List Instruction) (next : Nat) : Prop where
  length : code'.length = code.length
  rows : ∀ (p : Nat) i i', code[p]? = some i → code'[p]? = some i' → Survives i i' ∨
    i.opcode.isUnconditionalBranch = true ∧ ∃ opcode, Inserted next opcode i'
  entry : Agree code code' next (Settles code 0) (Settles code' 0)
  ways : ∀ (p : Nat) i i' way, code[p]? = some i → code'[p]? = some i' → Survives i i' →
    Agree code code' next (Leaves code p way) (Leaves code' p way)
  single : ∀ p q q', Settles code' p q → Settles code' p q' → q = q'

-- A body after its plan has been carried out.
def threaded (code : Stream) (next : Nat) : List Instruction := apply (plan code) next code.toList

section Threaded

variable (code : Stream) (next : Nat)

theorem label?_carried_out (p : Plan) (returned : InsnId) (i : Instruction) :
    (carriedOut p returned i).label? = i.label? := by
  rw [carriedOut]
  cases exits : p.exit? i with
  | some opcode =>
      obtain ⟨label, isGoto, _⟩ := Option.bind_eq_some_iff.mp exits
      rw [Instruction.label?, Instruction.label?, ((goto?_iff i label).mp isGoto).2]
      rfl
  | none =>
      obtain ⟨_, _, operand⟩ := i
      cases operand <;> rfl

theorem is_label_carried_out (p : Plan) (returned : InsnId) (i : Instruction) :
    (carriedOut p returned i).isLabel = i.isLabel :=
  congrArg Option.isSome (label?_carried_out p returned i)

theorem survives_retarget (f : LabelId → LabelId) (i : Instruction) : Survives i (retarget f i) := by
  rw [retarget]
  split
  · exact ⟨rfl, rfl⟩
  · exact ⟨rfl, rfl⟩

theorem threaded_at {p : Nat} {i : Instruction} (here : code.toList[p]? = some i) :
    ∃ n, next ≤ n ∧ (threaded code next)[p]? = some (carriedOut (plan code) ⟨n⟩ i) :=
  get_elem?_apply (plan code) next code.toList p i here

theorem threaded_back {p : Nat} {i' : Instruction} (here : (threaded code next)[p]? = some i') :
    ∃ i n, code.toList[p]? = some i ∧ next ≤ n ∧ i' = carriedOut (plan code) ⟨n⟩ i := by
  obtain ⟨inside, _⟩ := List.getElem?_eq_some_iff.mp here
  rw [threaded, length_apply] at inside
  have before := List.getElem?_eq_getElem inside
  obtain ⟨n, fresh, after⟩ := threaded_at code next before
  exact ⟨_, n, before, fresh, Option.some.inj (here.symm.trans after)⟩

theorem label?_threaded (p : Nat) :
    (threaded code next)[p]?.map Instruction.label? = code.toList[p]?.map Instruction.label? := by
  cases here : code.toList[p]? with
  | none =>
      have outside := List.getElem?_eq_none_iff.mp here
      have after : (threaded code next)[p]? = none := by
        rw [threaded, List.getElem?_eq_none_iff, length_apply]
        exact outside
      rw [after]
  | some i =>
      obtain ⟨n, _, after⟩ := threaded_at code next here
      rw [after, Option.map_some, Option.map_some, label?_carried_out]

theorem marks_threaded (p : Nat) (label : LabelId) :
    Marks (threaded code next) p label ↔ Marks code.toList p label := by
  have bound : ∀ at? : Option Instruction,
      at?.bind Instruction.label? = (at?.map Instruction.label?).bind id := by
    intro at?
    cases at? <;> rfl
  rw [Marks, Marks, bound, bound, label?_threaded]

theorem unique_threaded (unique : (code.toList.filterMap Instruction.label?).Nodup) :
    ((threaded code next).filterMap Instruction.label?).Nodup := by
  have same : (threaded code next).map Instruction.label? = code.toList.map Instruction.label? := by
    apply List.ext_getElem?
    intro p
    rw [List.getElem?_map, List.getElem?_map, label?_threaded]
  have listed : ∀ is : List Instruction,
      is.filterMap Instruction.label? = (is.map Instruction.label?).filterMap id := by
    intro is
    rw [List.filterMap_map, Function.id_comp]
  rwa [listed, same, ← listed]

theorem rests_threaded {p q : Nat} (rests : Rests code.toList p q) : Rests (threaded code next) p q := by
  induction rests with
  | stop here real =>
      obtain ⟨n, _, after⟩ := threaded_at code next here
      exact .stop after ((is_label_carried_out _ _ _).trans real)
  | label here marker _ ih =>
      obtain ⟨n, _, after⟩ := threaded_at code next here
      exact .label after ((is_label_carried_out _ _ _).trans marker) ih

theorem survives_stays {p : Nat} {i : Instruction} (here : code.toList[p]? = some i)
    (stays : i.opcode.isUnconditionalBranch = false) :
    ∃ i', (threaded code next)[p]? = some i' ∧ Survives i i' ∧ i'.isLabel = i.isLabel := by
  obtain ⟨n, _, after⟩ := threaded_at code next here
  have survives : Survives i (carriedOut (plan code) ⟨n⟩ i) := by
    have none : goto? i = none := by
      rw [Option.eq_none_iff_forall_ne_some]
      intro label isGoto
      rw [((goto?_iff i label).mp isGoto).1] at stays
      cases stays
    rw [carriedOut, Plan.exit?, none]
    exact survives_retarget _ i
  exact ⟨_, after, survives, is_label_carried_out _ _ _⟩

theorem is_unconditional_branch_of_is_return (opcode : Opcode) (returns : opcode.isReturn = true) :
    opcode.isUnconditionalBranch = false := by
  simp only [Opcode.isReturn, Bool.and_eq_true, decide_eq_true_eq] at returns
  simp only [Opcode.isUnconditionalBranch, Bool.or_eq_false_iff, decide_eq_false_iff_not]
  constructor
  · intro same
    subst same
    exact absurd returns (by decide)
  · intro same
    subst same
    exact absurd returns (by decide)

theorem carried_out_jump {i : Instruction} (member : i ∈ code.toList) {label : LabelId}
    (goes : i.operand = .jump label) (exits : (plan code).exit? i = none) (returned : InsnId) :
    (carriedOut (plan code) returned i).opcode = i.opcode ∧
      (carriedOut (plan code) returned i).operand = .jump (chainEnd code label) := by
  have named : label ∈ i.targets := by
    rw [Instruction.targets, goes]
    exact List.mem_singleton_self _
  rw [carriedOut, exits]
  dsimp only
  rw [retarget_jump _ goes, finish_eq code label ⟨i, member, named⟩]
  exact ⟨(survives_retarget _ i).opcode, rfl⟩

theorem jump_of_carried_out {p : Plan} {returned : InsnId} {i : Instruction} {label : LabelId}
    (goes : (carriedOut p returned i).operand = .jump label) :
    p.exit? i = none ∧ ∃ label, i.operand = .jump label := by
  rw [carriedOut] at goes
  cases exits : p.exit? i with
  | some opcode =>
      rw [exits] at goes
      cases goes
  | none =>
      rw [exits] at goes
      obtain ⟨_, _, operand⟩ := i
      cases operand with
      | jump target => exact ⟨rfl, target, rfl⟩
      | _ => cases goes

theorem retarget_of_survives {p : Nat} {i i' : Instruction} (before : code.toList[p]? = some i)
    (after : (threaded code next)[p]? = some i') (survives : Survives i i') :
    i' = retarget (plan code).finish i := by
  obtain ⟨n, _, there⟩ := threaded_at code next before
  cases after.symm.trans there
  cases exits : (plan code).exit? i with
  | none => rw [carriedOut, exits]
  | some opcode =>
      obtain ⟨label, _, isGoto, _, returns, same⟩ :=
        (exit?_iff code i (List.mem_of_getElem? before) opcode).mp exits
      have kept := survives.opcode
      rw [carriedOut, exits] at kept
      have away := ((goto?_iff i label).mp isGoto).1
      rw [← kept, ← same, is_unconditional_branch_of_is_return _ returns] at away
      cases away

theorem lookup_map_snd (f : LabelId → LabelId) (cases : List (Int32 × LabelId)) (value : Int32) :
    (cases.map fun c => (c.1, f c.2)).lookup value = (cases.lookup value).map f := by
  induction cases with
  | nil => rfl
  | cons c cases ih =>
      rw [List.map_cons, List.lookup_cons, List.lookup_cons]
      cases value == c.1 with
      | true => rfl
      | false => exact ih

theorem label?_retarget (way : Way) (f : LabelId → LabelId) (i : Instruction) :
    way.label? (retarget f i) = (way.label? i).map f := by
  cases goes : i.operand with
  | jump label => cases way <;> simp [Way.label?, retarget_jump f goes, goes]
  | switch otherwise cases =>
      cases way with
      | key value =>
          simp only [Way.label?, retarget_switch f goes, goes, lookup_map_snd, Option.getD_map,
            Option.map_some]
      | _ => simp [Way.label?, retarget_switch f goes, goes]
  | _ =>
      have still : (retarget f i).operand = i.operand := by
        simp [retarget, Instruction.isLabel, Operand.isLabel, Operand.label?, goes, Operand.mapLabels]
      cases way <;> simp [Way.label?, still, goes]

theorem continues_retarget (f : LabelId → LabelId) (i : Instruction) :
    (retarget f i).continues = i.continues := by
  obtain ⟨_, _, operand⟩ := i
  cases operand <;> rfl

theorem mem_targets_of_label? {way : Way} {i : Instruction} {label : LabelId}
    (goes : way.label? i = some label) : label ∈ i.targets := by
  obtain ⟨_, _, operand⟩ := i
  cases way with
  | behind => cases goes
  | jump =>
      cases operand with
      | jump target =>
          cases goes
          exact List.mem_singleton_self _
      | _ => cases goes
  | key value =>
      cases operand with
      | switch otherwise cases =>
          cases goes
          cases found : cases.lookup value with
          | none => exact List.mem_cons_self
          | some target =>
              obtain ⟨before, after, split, _⟩ := List.lookup_eq_some_iff.mp found
              apply List.mem_cons_of_mem
              rw [split, List.map_append]
              exact List.mem_append_right _ List.mem_cons_self
      | _ => cases goes

section Unique

variable {code} (unique : (code.toList.filterMap Instruction.label?).Nodup)

include unique

theorem settles_at_unique {label : LabelId} {q q' : Nat} (settles : SettlesAt code.toList label q)
    (settles' : SettlesAt code.toList label q') : q = q' := by
  obtain ⟨p, marks, settles⟩ := settles
  obtain ⟨p', marks', settles'⟩ := settles'
  cases marks_unique unique marks marks'
  exact settles_unique unique settles settles'

theorem settles_at_exit {i : Instruction} (member : i ∈ code.toList) {opcode : Opcode}
    (exits : (plan code).exit? i = some opcode) : opcode.isReturn = true ∧ ∃ label r q,
      i.opcode.isUnconditionalBranch = true ∧ i.operand = .jump label ∧
        SettlesAt code.toList label q ∧ code.toList[q]? = some r ∧ r.opcode = opcode := by
  obtain ⟨label, r, isGoto, real, returns, same⟩ := (exit?_iff code i member opcode).mp exits
  obtain ⟨away, goes⟩ := (goto?_iff i label).mp isGoto
  obtain ⟨p, q, marks, rests, here⟩ := (real_at_label?_iff unique _ r).mp real
  have stays := is_unconditional_branch_of_is_return r.opcode returns
  have atEnd : SettlesAt code.toList (chainEnd code label) q := by
    obtain ⟨_, here', real'⟩ := rests.real
    cases here.symm.trans here'
    exact ⟨p, marks, (rests.settles_iff q).mpr (.stop here real' stays)⟩
  subst same
  exact ⟨returns, label, r, q, away, goes, (settles_at_chain_end unique label q).mp atEnd, here, rfl⟩

theorem settles_at_onward {label : LabelId} {q : Nat} (settles : SettlesAt code.toList label q) :
    SettlesAt (threaded code next) (chainEnd code label) q ∧
      Answers code.toList (threaded code next) next q q := by
  obtain ⟨p, i, marks, rests, here, stays⟩ := rests_chain_end unique settles
  obtain ⟨i', after, survives, sameKind⟩ := survives_stays code next here stays
  obtain ⟨_, here', real⟩ := rests.real
  cases here.symm.trans here'
  have stopped : Settles (threaded code next) q q :=
    .stop after (sameKind.trans real) (survives.opcode ▸ stays)
  have marks' := (marks_threaded code next p _).mpr marks
  have rests' := rests_threaded code next rests
  exact ⟨⟨p, marks', (rests'.settles_iff q).mpr stopped⟩, .survives here after rfl survives⟩

theorem settles_onward {p q : Nat} (settles : Settles code.toList p q) :
    ∃ q', Settles (threaded code next) p q' ∧ Answers code.toList (threaded code next) next q q' := by
  induction settles with
  | stop here real stays =>
      obtain ⟨i', after, survives, sameKind⟩ := survives_stays code next here stays
      exact ⟨_, .stop after (sameKind.trans real) (survives.opcode ▸ stays), .survives here after rfl survives⟩
  | label here marker _ ih =>
      obtain ⟨n, _, after⟩ := threaded_at code next here
      obtain ⟨q', settles, answers⟩ := ih
      exact ⟨q', .label after ((is_label_carried_out _ _ _).trans marker) settles, answers⟩
  | jump here away goes marks on _ =>
      have member := List.mem_of_getElem? here
      obtain ⟨n, fresh, after⟩ := threaded_at code next here
      cases exits : (plan code).exit? _ with
      | some opcode =>
          obtain ⟨returns, label, r, q', _, goes', settles', there, same⟩ :=
            settles_at_exit unique member exits
          cases goes.symm.trans goes'
          cases settles_at_unique unique ⟨_, marks, on⟩ settles'
          subst same
          rw [carriedOut, exits] at after
          have stays := is_unconditional_branch_of_is_return r.opcode returns
          exact ⟨_, .stop after rfl stays, .returns there after ⟨returns, rfl, rfl, fresh⟩⟩
      | none =>
          obtain ⟨sameOpcode, goes'⟩ := carried_out_jump code member goes exits ⟨n⟩
          obtain ⟨⟨t', marks', settles'⟩, answers⟩ := settles_at_onward next unique ⟨_, marks, on⟩
          exact ⟨_, .jump after (sameOpcode ▸ away) goes' marks' settles', answers⟩

theorem settles_back {p q' : Nat} (settles : Settles (threaded code next) p q') :
    ∃ q, Settles code.toList p q ∧ Answers code.toList (threaded code next) next q q' := by
  induction settles with
  | stop there real stays =>
      obtain ⟨i, n, here, fresh, rfl⟩ := threaded_back code next there
      cases exits : (plan code).exit? i with
      | some opcode =>
          obtain ⟨returns, label, r, q, away, goes, ⟨t, marks, settles⟩, before, same⟩ :=
            settles_at_exit unique (List.mem_of_getElem? here) exits
          subst same
          rw [carriedOut, exits] at there
          exact ⟨q, .jump here away goes marks settles, .returns before there ⟨returns, rfl, rfl, fresh⟩⟩
      | none =>
          have survives : Survives i (carriedOut (plan code) ⟨n⟩ i) := by
            rw [carriedOut, exits]
            exact survives_retarget _ i
          rw [is_label_carried_out] at real
          rw [survives.opcode] at stays
          exact ⟨_, .stop here real stays, .survives here there rfl survives⟩
  | label there marker _ ih =>
      obtain ⟨i, n, here, _, rfl⟩ := threaded_back code next there
      obtain ⟨q, settles, answers⟩ := ih
      rw [is_label_carried_out] at marker
      exact ⟨q, .label here marker settles, answers⟩
  | jump there away goes marks _ ih =>
      obtain ⟨i, n, here, _, rfl⟩ := threaded_back code next there
      obtain ⟨q, settles, answers⟩ := ih
      obtain ⟨exits, label, before⟩ := jump_of_carried_out goes
      obtain ⟨sameOpcode, goes'⟩ := carried_out_jump code (List.mem_of_getElem? here) before exits ⟨n⟩
      cases goes.symm.trans goes'
      have atEnd : SettlesAt code.toList (chainEnd code label) q :=
        ⟨_, (marks_threaded code next _ _).mp marks, settles⟩
      obtain ⟨t, marks', settles'⟩ := (settles_at_chain_end unique label q).mp atEnd
      exact ⟨q, .jump here (sameOpcode ▸ away) before marks' settles', answers⟩

theorem agree_settles (p : Nat) : Agree code.toList (threaded code next) next (Settles code.toList p)
    (Settles (threaded code next) p) where
  onward _ settles := settles_onward next unique settles
  back _ settles := settles_back next unique settles

theorem agree_settles_at (label : LabelId) : Agree code.toList (threaded code next) next
    (SettlesAt code.toList label) (SettlesAt (threaded code next) (chainEnd code label)) where
  onward q settles := ⟨q, settles_at_onward next unique settles⟩
  back q' settles := by
    obtain ⟨p, marks, settles⟩ := settles
    obtain ⟨q, settles, answers⟩ := settles_back next unique settles
    have atEnd : SettlesAt code.toList (chainEnd code label) q :=
      ⟨p, (marks_threaded code next p _).mp marks, settles⟩
    exact ⟨q, (settles_at_chain_end unique label q).mp atEnd, answers⟩

theorem agree_leaves {p : Nat} {i i' : Instruction} (way : Way) (before : code.toList[p]? = some i)
    (after : (threaded code next)[p]? = some i') (survives : Survives i i') :
    Agree code.toList (threaded code next) next (Leaves code.toList p way)
      (Leaves (threaded code next) p way) := by
  cases retarget_of_survives code next before after survives
  constructor
  · intro q leaves
    cases leaves with
    | behind here on continues settles =>
        cases before.symm.trans here
        obtain ⟨q', settles', answers⟩ := settles_onward next unique settles
        exact ⟨q', .behind after on ((continues_retarget _ i).trans continues) settles', answers⟩
    | sent here goes settles =>
        cases before.symm.trans here
        rename_i label
        have finished := finish_eq code label ⟨i, List.mem_of_getElem? before, mem_targets_of_label? goes⟩
        have goes' : way.label? (retarget (plan code).finish i) = some (chainEnd code label) := by
          rw [label?_retarget, goes, Option.map_some, finished]
        obtain ⟨q', settles', answers⟩ := (agree_settles_at next unique label).onward q settles
        exact ⟨q', .sent after goes' settles', answers⟩
  · intro q' leaves
    cases leaves with
    | behind there on continues settles =>
        cases after.symm.trans there
        obtain ⟨q, settles', answers⟩ := settles_back next unique settles
        exact ⟨q, .behind before on ((continues_retarget _ i).symm.trans continues) settles', answers⟩
    | sent there goes settles =>
        cases after.symm.trans there
        rw [label?_retarget, Option.map_eq_some_iff] at goes
        obtain ⟨label, goes, finished⟩ := goes
        rw [finish_eq code label ⟨i, List.mem_of_getElem? before, mem_targets_of_label? goes⟩] at finished
        subst finished
        obtain ⟨q, settles', answers⟩ := (agree_settles_at next unique label).back q' settles
        exact ⟨q, .sent before goes settles', answers⟩

theorem keeps_control_threaded : KeepsControl code.toList (threaded code next) next where
  length := length_apply _ _ _
  rows p i i' before after := by
    obtain ⟨n, fresh, there⟩ := threaded_at code next before
    cases after.symm.trans there
    cases exits : (plan code).exit? i with
    | none =>
        rw [carriedOut, exits]
        exact .inl (survives_retarget _ i)
    | some opcode =>
        obtain ⟨returns, _, _, _, away, _⟩ :=
          settles_at_exit unique (List.mem_of_getElem? before) exits
        rw [carriedOut, exits]
        exact .inr ⟨away, opcode, returns, rfl, rfl, fresh⟩
  entry := agree_settles next unique 0
  ways _ _ _ way before after survives := agree_leaves next unique way before after survives
  single p q q' settles settles' := by
    have uniqueNow : ((⟨threaded code next⟩ : Stream).toList.filterMap Instruction.label?).Nodup :=
      unique_threaded code next unique
    exact settles_unique uniqueNow settles settles'

end Unique

end Threaded

theorem keeps_control_visit [Libraries] (c : PassContext) (id : MethodId) (m : Method)
    (live : c.program.method? id = some m)
    (unique : (m.code.toList.filterMap Instruction.label?).Nodup) :
    Yields (visit id) c fun _ after => ∃ m', after.program.method? id = some m' ∧
      m'.code.toList = threaded m.code c.program.nextId ∧
      KeepsControl m.code.toList m'.code.toList c.program.nextId := by
  have kept := keeps_control_threaded c.program.nextId unique
  apply yields_get_bind
  rw [live]
  dsimp only
  cases planned : isPlanned (plan m.code) m.code with
  | false =>
      have same : threaded m.code c.program.nextId = m.code.toList :=
        apply_unplanned m.code _ planned
      rw [if_neg Bool.false_ne_true]
      exact yields_pure () c _ ⟨m, live, same.symm, same ▸ kept⟩
  | true =>
      rw [if_pos rfl]
      obtain ⟨edited, done, live'⟩ := Program.edit_body_live _ id
        (fun m' => { m' with code := ⟨apply (plan m.code) c.program.nextId m'.code.toList⟩ }) m
        (show (c.program.advance _).method? id = some m from live)
      apply yields_bind _ _ c fun _ now => ∃ m', now.program.method? id = some m' ∧
        m'.code.toList = threaded m.code c.program.nextId
      · apply Work.yields_edit _ (c.accept edited)
        · rw [done]
          rfl
        · exact ⟨_, live', rfl⟩
      · intro _ now reached
        apply Work.yields_record
        intro _
        obtain ⟨m', live', same⟩ := reached
        exact ⟨m', live', same, same ▸ kept⟩

-- A branch to a jump that goes on to a return, a jump to that return, and a jump to itself.
def detours : Stream := ⟨[
  ⟨⟨10⟩, .ifEq, .jump ⟨1⟩⟩,
  ⟨⟨11⟩, .goto, .jump ⟨2⟩⟩,
  ⟨⟨12⟩, .label, .label ⟨1⟩⟩,
  ⟨⟨13⟩, .goto, .jump ⟨2⟩⟩,
  ⟨⟨14⟩, .label, .label ⟨2⟩⟩,
  ⟨⟨15⟩, .returnVoid, .simple⟩,
  ⟨⟨16⟩, .label, .label ⟨3⟩⟩,
  ⟨⟨17⟩, .goto, .jump ⟨3⟩⟩]⟩

def detoured : Method where
  owner := ⟨1⟩
  name := "run"
  descriptor := "(I)V"
  signature := none
  access := Flags.staticFlag
  kind := .method
  exceptions := []
  annotations := []
  code := detours

theorem keeps_control_visit_detours :
    let c : PassContext := { pass := "jumps", program := { nextId := 20, methods := ⟨[(⟨2⟩, detoured)]⟩ } }
    (c.program.method? ⟨2⟩ = some detoured ∧ (detours.toList.filterMap Instruction.label?).Nodup) ∧
      Yields (visit ⟨2⟩) c (fun _ after => ∃ m', after.program.method? ⟨2⟩ = some m' ∧
        m'.code.toList = threaded detours 20 ∧ KeepsControl detours.toList m'.code.toList 20) ∧
      threaded detours 20 = [
        ⟨⟨10⟩, .ifEq, .jump ⟨2⟩⟩,
        ⟨⟨20⟩, .returnVoid, .simple⟩,
        ⟨⟨12⟩, .label, .label ⟨1⟩⟩,
        ⟨⟨21⟩, .returnVoid, .simple⟩,
        ⟨⟨14⟩, .label, .label ⟨2⟩⟩,
        ⟨⟨15⟩, .returnVoid, .simple⟩,
        ⟨⟨16⟩, .label, .label ⟨3⟩⟩,
        ⟨⟨17⟩, .goto, .jump ⟨3⟩⟩] := by
  intro c
  have unique : (detours.toList.filterMap Instruction.label?).Nodup := by decide
  exact ⟨⟨rfl, unique⟩, keeps_control_visit c ⟨2⟩ detoured rfl unique, by decide⟩

end Jumps

end JvmEdit
