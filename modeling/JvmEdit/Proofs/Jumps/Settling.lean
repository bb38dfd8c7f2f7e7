import JvmEdit.Pass.Jumps
import JvmEdit.Proofs.Flow.Paths
import Mathlib.Data.List.Perm.Subperm
set_option autoImplicit false

namespace JvmEdit

namespace Jumps

open JvmEdit.Flow (Marks)

inductive Settles (code : List Instruction) : Nat → Nat → Prop
  | stop {p : Nat} {i : Instruction} (here : code[p]? = some i) (real : i.isLabel = false)
      (stays : i.opcode.isUnconditionalBranch = false) : Settles code p p
  | label {p q : Nat} {i : Instruction} (here : code[p]? = some i) (marker : i.isLabel = true)
      (on : Settles code (p + 1) q) : Settles code p q
  | jump {p t q : Nat} {i : Instruction} {label : LabelId} (here : code[p]? = some i)
      (away : i.opcode.isUnconditionalBranch = true) (goes : i.operand = .jump label)
      (marks : Marks code t label) (on : Settles code t q) : Settles code p q

-- Control that is sent to a label settles there.
def SettlesAt (code : List Instruction) (label : LabelId) (q : Nat) : Prop :=
  ∃ p, Marks code p label ∧ Settles code p q

-- From a position control comes to the next instruction that is no label.
inductive Rests (code : List Instruction) : Nat → Nat → Prop
  | stop {p : Nat} {i : Instruction} (here : code[p]? = some i) (real : i.isLabel = false) : Rests code p p
  | label {p q : Nat} {i : Instruction} (here : code[p]? = some i) (marker : i.isLabel = true)
      (on : Rests code (p + 1) q) : Rests code p q

-- Where the unconditional jump goes that a label leads to.
def hop? (code : Stream) (label : LabelId) : Option LabelId := (code.realAtLabel? label).bind goto?

-- The labels at which a chain of unconditional jumps arrives, up to one that leads to no such jump.
inductive Chain (code : Stream) : LabelId → List LabelId → Prop
  | done {label : LabelId} (none : hop? code label = none) : Chain code label []
  | hop {label next : LabelId} {path : List LabelId} (some : hop? code label = some next)
      (on : Chain code next path) : Chain code label (next :: path)

theorem goto?_iff (i : Instruction) (label : LabelId) :
    goto? i = some label ↔ i.opcode.isUnconditionalBranch = true ∧ i.operand = .jump label := by
  obtain ⟨id, opcode, operand⟩ := i
  cases operand with
  | jump target =>
      simp only [goto?, Opcode.isUnconditionalBranch, Option.ite_none_right_eq_some, Operand.jump.injEq,
        Option.some.injEq]
  | _ => simp [goto?]

theorem not_label_of_jump {i : Instruction} {label : LabelId} (goes : i.operand = .jump label) :
    i.isLabel = false := by
  rw [Instruction.isLabel, goes]
  rfl

theorem Rests.real {code : List Instruction} {p q : Nat} (rests : Rests code p q) :
    ∃ i, code[q]? = some i ∧ i.isLabel = false := by
  induction rests with
  | stop here real => exact ⟨_, here, real⟩
  | label _ _ _ ih => exact ih

theorem Rests.unique {code : List Instruction} {p q q' : Nat} (rests : Rests code p q)
    (rests' : Rests code p q') : q = q' := by
  induction rests with
  | stop here real =>
      cases rests' with
      | stop => rfl
      | label here' marker _ =>
          cases here.symm.trans here'
          rw [real] at marker
          cases marker
  | label here marker _ ih =>
      cases rests' with
      | stop here' real =>
          cases here.symm.trans here'
          rw [real] at marker
          cases marker
      | label _ _ on => exact ih on

theorem find?_real_iff (code : List Instruction) (p : Nat) (i : Instruction) :
    (code.drop p).find? (!·.isLabel) = some i ↔ ∃ q, Rests code p q ∧ code[q]? = some i := by
  induction left : code.length - p generalizing p with
  | zero =>
      have outside : code.length ≤ p := by omega
      rw [List.drop_eq_nil_of_le outside]
      constructor
      · intro found
        cases found
      · intro ⟨q, rests, _⟩
        have missing := List.getElem?_eq_none outside
        cases rests with
        | stop here _ => cases missing.symm.trans here
        | label here _ _ => cases missing.symm.trans here
  | succ n ih =>
      have inside : p < code.length := by omega
      have here := List.getElem?_eq_getElem inside
      rw [List.drop_eq_getElem_cons inside]
      cases marker : code[p].isLabel with
      | true =>
          rw [List.find?_cons_of_neg (by simp [marker]), ih (p + 1) (by omega)]
          constructor
          · intro ⟨q, rests, found⟩
            exact ⟨q, .label here marker rests, found⟩
          · intro ⟨q, rests, found⟩
            cases rests with
            | stop here' real =>
                cases here.symm.trans here'
                rw [marker] at real
                cases real
            | label _ _ on => exact ⟨q, on, found⟩
      | false =>
          rw [List.find?_cons_of_pos (by simp [marker])]
          constructor
          · intro same
            cases same
            exact ⟨p, .stop here marker, here⟩
          · intro ⟨q, rests, found⟩
            cases rests.unique (.stop here marker)
            exact here.symm.trans found

-- How control goes on that settles, by what stands where it is.
section Settles

variable {code : List Instruction} {p q : Nat} {i : Instruction} (settles : Settles code p q)
  (here : code[p]? = some i)

include settles here

theorem Settles.of_stop (real : i.isLabel = false) (stays : i.opcode.isUnconditionalBranch = false) :
    q = p := by
  cases settles with
  | stop => rfl
  | label here' marker =>
      cases here.symm.trans here'
      rw [real] at marker
      cases marker
  | jump here' away =>
      cases here.symm.trans here'
      rw [stays] at away
      cases away

theorem Settles.of_label (marker : i.isLabel = true) : Settles code (p + 1) q := by
  cases settles with
  | stop here' real =>
      cases here.symm.trans here'
      rw [marker] at real
      cases real
  | label _ _ on => exact on
  | jump here' _ goes =>
      cases here.symm.trans here'
      rw [not_label_of_jump goes] at marker
      cases marker

theorem Settles.of_jump {label : LabelId} (away : i.opcode.isUnconditionalBranch = true)
    (goes : i.operand = .jump label) : ∃ t, Marks code t label ∧ Settles code t q := by
  cases settles with
  | stop here' _ stays =>
      cases here.symm.trans here'
      rw [away] at stays
      cases stays
  | label here' marker =>
      cases here.symm.trans here'
      rw [not_label_of_jump goes] at marker
      cases marker
  | jump here' _ goes' marks on =>
      cases here.symm.trans here'
      cases goes.symm.trans goes'
      exact ⟨_, marks, on⟩

end Settles

theorem Settles.rests {code : List Instruction} {p q : Nat} (settles : Settles code p q) :
    ∃ r, Rests code p r := by
  induction settles with
  | stop here real _ => exact ⟨_, .stop here real⟩
  | label here marker _ ih =>
      obtain ⟨r, rests⟩ := ih
      exact ⟨r, .label here marker rests⟩
  | jump here _ goes _ _ _ => exact ⟨_, .stop here (not_label_of_jump goes)⟩

theorem Rests.settles_iff {code : List Instruction} {p r : Nat} (rests : Rests code p r) (q : Nat) :
    Settles code p q ↔ Settles code r q := by
  induction rests with
  | stop => rfl
  | label here marker _ ih =>
      rw [← ih]
      constructor
      · exact fun settles => settles.of_label here marker
      · exact .label here marker

section Chains

variable {code : Stream}

theorem Chain.unique {label : LabelId} {path path' : List LabelId} (chain : Chain code label path)
    (chain' : Chain code label path') : path = path' := by
  induction chain generalizing path' with
  | done none =>
      cases chain' with
      | done => rfl
      | hop some _ => cases none.symm.trans some
  | hop some _ ih =>
      cases chain' with
      | done none => cases none.symm.trans some
      | hop some' on =>
          cases some.symm.trans some'
          exact congrArg _ (ih on)

theorem Chain.shorter {label later : LabelId} {path : List LabelId} (chain : Chain code label path)
    (member : later ∈ path) : ∃ rest, Chain code later rest ∧ rest.length < path.length := by
  induction chain with
  | done => cases member
  | hop _ on ih =>
      rcases List.mem_cons.mp member with here | behind
      · subst here
        exact ⟨_, on, Nat.lt_succ_self _⟩
      · obtain ⟨rest, chain, less⟩ := ih behind
        exact ⟨rest, chain, Nat.lt_succ_of_lt less⟩

theorem Chain.not_mem {label : LabelId} {path : List LabelId} (chain : Chain code label path) :
    label ∉ path := by
  intro member
  obtain ⟨rest, again, less⟩ := chain.shorter member
  rw [chain.unique again] at less
  exact Nat.lt_irrefl _ less

theorem Chain.nodup {label : LabelId} {path : List LabelId} (chain : Chain code label path) :
    path.Nodup := by
  induction chain with
  | done => exact List.nodup_nil
  | hop _ on ih => exact List.nodup_cons.mpr ⟨on.not_mem, ih⟩

theorem Chain.gotos {label : LabelId} {path : List LabelId} (chain : Chain code label path) :
    path ⊆ code.toList.filterMap goto? := by
  induction chain with
  | done => exact List.nil_subset _
  | hop some _ ih =>
      obtain ⟨i, real, isGoto⟩ := Option.bind_eq_some_iff.mp some
      obtain ⟨p, _, found⟩ := Option.bind_eq_some_iff.mp real
      have member := List.mem_of_mem_drop (List.mem_of_find?_eq_some found)
      exact List.cons_subset.mpr ⟨List.mem_filterMap.mpr ⟨i, member, isGoto⟩, ih⟩

theorem Chain.length_le {label : LabelId} {path : List LabelId} (chain : Chain code label path) :
    path.length ≤ code.size :=
  Nat.le_trans (chain.nodup.subperm chain.gotos).length_le (List.length_filterMap_le ..)

theorem follow_chain_of_chain {label : LabelId} {path : List LabelId} (chain : Chain code label path)
    (seen : List LabelId) (fuel : Nat) (unseen : ∀ l ∈ seen, l ∉ path) (enough : path.length < fuel) :
    followChain code seen label fuel = some (path.getLastD label) := by
  induction chain generalizing seen fuel with
  | done none =>
      obtain ⟨fuel, rfl⟩ := Nat.exists_eq_succ_of_ne_zero (Nat.ne_of_gt enough)
      rw [hop?] at none
      rw [followChain, none, List.getLastD_nil]
  | hop some on ih =>
      rename_i label next path
      obtain ⟨fuel, rfl⟩ := Nat.exists_eq_succ_of_ne_zero (Nat.ne_of_gt (Nat.zero_lt_of_lt enough))
      rw [hop?] at some
      have fresh : ¬seen.contains next = true := by
        intro known
        exact unseen next (List.contains_iff_mem.mp known) List.mem_cons_self
      rw [followChain, some]
      dsimp only
      rw [if_neg fresh, List.getLastD_cons]
      apply ih
      · intro l known
        rcases List.mem_cons.mp known with here | before
        · subst here
          exact on.not_mem
        · intro behind
          exact unseen l before (List.mem_cons_of_mem _ behind)
      · exact Nat.lt_of_succ_lt_succ enough

theorem chain_of_follow_chain (seen : List LabelId) (label last : LabelId) (fuel : Nat)
    (followed : followChain code seen label fuel = some last) :
    ∃ path, Chain code label path ∧ last = path.getLastD label := by
  induction fuel generalizing seen label with
  | zero => cases followed
  | succ fuel ih =>
      rw [followChain] at followed
      split at followed
      · rename_i none
        cases followed
        exact ⟨[], .done none, rfl⟩
      · rename_i next some
        split at followed
        · cases followed
        · obtain ⟨path, chain, isLast⟩ := ih _ next followed
          exact ⟨next :: path, .hop some chain, isLast.trans List.getLastD_cons.symm⟩

theorem chain_end_of_chain {label : LabelId} {path : List LabelId} (chain : Chain code label path) :
    chainEnd code label = path.getLastD label := by
  have followed := follow_chain_of_chain chain [label] (code.size + 1)
    (fun l known => List.mem_singleton.mp known ▸ chain.not_mem) (Nat.lt_succ_of_le chain.length_le)
  rw [chainEnd, followed, Option.getD_some]

theorem chain_end_endless {label : LabelId} (endless : ∀ path, ¬Chain code label path) :
    chainEnd code label = label := by
  rw [chainEnd]
  cases followed : followChain code [label] label (code.size + 1) with
  | none => rfl
  | some last =>
      obtain ⟨path, chain, _⟩ := chain_of_follow_chain _ _ _ _ followed
      exact absurd chain (endless path)

theorem Chain.ends {label : LabelId} {path : List LabelId} (chain : Chain code label path) :
    hop? code (path.getLastD label) = none := by
  induction chain with
  | done none => exact none
  | hop _ _ ih => rwa [List.getLastD_cons]

end Chains

section Body

variable {code : Stream} (unique : (code.toList.filterMap Instruction.label?).Nodup)

include unique

theorem marks_unique {p p' : Nat} {label : LabelId} (marks : Marks code.toList p label)
    (marks' : Marks code.toList p' label) : p = p' := by
  have found := Flow.lookup_label_table code.toList unique p label marks
  rw [Flow.lookup_label_table code.toList unique p' label marks'] at found
  exact (Option.some.inj found).symm

theorem label_position?_iff (p : Nat) (label : LabelId) :
    code.labelPosition? label = some p ↔ Marks code.toList p label := by
  have first : ∀ p, code.labelPosition? label = some p → Marks code.toList p label := by
    intro p found
    obtain ⟨inside, marked, _⟩ := List.findIdx?_eq_some_iff_getElem.mp found
    rw [Marks, List.getElem?_eq_getElem inside]
    exact of_decide_eq_true marked
  constructor
  · exact first p
  · intro marks
    cases found : code.labelPosition? label with
    | some p' => exact congrArg some (marks_unique unique (first p' found) marks)
    | none =>
        obtain ⟨i, here, marked⟩ := Option.bind_eq_some_iff.mp marks
        have unmarked := List.findIdx?_eq_none_iff.mp found i (List.mem_of_getElem? here)
        simp [marked] at unmarked

theorem real_at_label?_iff (label : LabelId) (i : Instruction) : code.realAtLabel? label = some i ↔
    ∃ p q, Marks code.toList p label ∧ Rests code.toList p q ∧ code.toList[q]? = some i := by
  rw [Stream.realAtLabel?, Option.bind_eq_some_iff]
  simp only [label_position?_iff unique, find?_real_iff]
  constructor
  · intro ⟨p, marks, q, rests, found⟩
    exact ⟨p, q, marks, rests, found⟩
  · intro ⟨p, q, marks, rests, found⟩
    exact ⟨p, marks, q, rests, found⟩

theorem settles_unique {p q q' : Nat} (settles : Settles code.toList p q)
    (settles' : Settles code.toList p q') : q = q' := by
  induction settles with
  | stop here real stays => exact (settles'.of_stop here real stays).symm
  | label here marker _ ih => exact ih (settles'.of_label here marker)
  | jump here away goes marks _ ih =>
      obtain ⟨t, marks', on⟩ := settles'.of_jump here away goes
      cases marks_unique unique marks marks'
      exact ih on

theorem settles_at_hop {label next : LabelId} (hops : hop? code label = some next) (q : Nat) :
    SettlesAt code.toList label q ↔ SettlesAt code.toList next q := by
  obtain ⟨i, real, isGoto⟩ := Option.bind_eq_some_iff.mp hops
  obtain ⟨p, r, marks, rests, here⟩ := (real_at_label?_iff unique label i).mp real
  obtain ⟨away, goes⟩ := (goto?_iff i next).mp isGoto
  constructor
  · intro ⟨p', marks', settles⟩
    cases marks_unique unique marks marks'
    exact ((rests.settles_iff q).mp settles).of_jump here away goes
  · intro ⟨t, marksNext, settles⟩
    exact ⟨p, marks, (rests.settles_iff q).mpr (.jump here away goes marksNext settles)⟩

theorem rests_of_settles_at {label : LabelId} {q : Nat} (none : hop? code label = none)
    (settles : SettlesAt code.toList label q) : ∃ p i, Marks code.toList p label ∧
      Rests code.toList p q ∧ code.toList[q]? = some i ∧ i.opcode.isUnconditionalBranch = false := by
  obtain ⟨p, marks, settles⟩ := settles
  obtain ⟨r, rests⟩ := settles.rests
  obtain ⟨i, here, real⟩ := rests.real
  cases (rests.settles_iff q).mp settles with
  | stop here' _ stays => exact ⟨p, _, marks, rests, here', stays⟩
  | label here' marker _ =>
      cases here.symm.trans here'
      rw [real] at marker
      cases marker
  | jump here' away goes _ _ =>
      rw [hop?, (real_at_label?_iff unique label _).mpr ⟨p, r, marks, rests, here'⟩, Option.bind_some,
        (goto?_iff _ _).mpr ⟨away, goes⟩] at none
      cases none

theorem chain_of_jump {label : LabelId} {p r : Nat} {i : Instruction}
    (marks : Marks code.toList p label) (rests : Rests code.toList p r) (here : code.toList[r]? = some i)
    (later : ∀ next, goto? i = some next → ∃ path, Chain code next path) :
    ∃ path, Chain code label path := by
  have real := (real_at_label?_iff unique label i).mpr ⟨p, r, marks, rests, here⟩
  have hops : hop? code label = goto? i := by rw [hop?, real, Option.bind_some]
  cases isGoto : goto? i with
  | none => exact ⟨[], .done (hops.trans isGoto)⟩
  | some next =>
      obtain ⟨path, chain⟩ := later next isGoto
      exact ⟨next :: path, .hop (hops.trans isGoto) chain⟩

theorem chain_of_settles {p q r : Nat} (settles : Settles code.toList p q) (rests : Rests code.toList p r)
    (i : Instruction) (there : code.toList[r]? = some i) (next : LabelId) (isGoto : goto? i = some next) :
    ∃ path, Chain code next path := by
  induction settles generalizing r i next with
  | stop here real stays =>
      cases rests.unique (.stop here real)
      cases here.symm.trans there
      rw [((goto?_iff _ next).mp isGoto).1] at stays
      cases stays
  | label here marker _ ih =>
      cases rests with
      | stop here' real =>
          cases here.symm.trans here'
          rw [marker] at real
          cases real
      | label _ _ on => exact ih on i there next isGoto
  | jump here _ goes marks on ih =>
      cases rests.unique (.stop here (not_label_of_jump goes))
      cases here.symm.trans there
      cases goes.symm.trans ((goto?_iff _ next).mp isGoto).2
      obtain ⟨r', rests'⟩ := on.rests
      obtain ⟨j, there', _⟩ := rests'.real
      exact chain_of_jump unique marks rests' there' (ih rests' j there')

theorem chain_of_settles_at {label : LabelId} {q : Nat} (settles : SettlesAt code.toList label q) :
    ∃ path, Chain code label path := by
  obtain ⟨p, marks, settles⟩ := settles
  obtain ⟨r, rests⟩ := settles.rests
  obtain ⟨i, there, _⟩ := rests.real
  exact chain_of_jump unique marks rests there (chain_of_settles unique settles rests i there)

theorem settles_at_last {label : LabelId} {path : List LabelId} (chain : Chain code label path) (q : Nat) :
    SettlesAt code.toList (path.getLastD label) q ↔ SettlesAt code.toList label q := by
  induction chain with
  | done => rfl
  | hop some _ ih => rw [List.getLastD_cons, ih, settles_at_hop unique some]

theorem settles_at_chain_end (label : LabelId) (q : Nat) :
    SettlesAt code.toList (chainEnd code label) q ↔ SettlesAt code.toList label q := by
  by_cases ends : ∃ path, Chain code label path
  · obtain ⟨path, chain⟩ := ends
    rw [chain_end_of_chain chain]
    exact settles_at_last unique chain q
  · rw [chain_end_endless (not_exists.mp ends)]

theorem rests_chain_end {label : LabelId} {q : Nat} (settles : SettlesAt code.toList label q) :
    ∃ p i, Marks code.toList p (chainEnd code label) ∧ Rests code.toList p q ∧
      code.toList[q]? = some i ∧ i.opcode.isUnconditionalBranch = false := by
  obtain ⟨path, chain⟩ := chain_of_settles_at unique settles
  have atEnd := (settles_at_chain_end unique label q).mpr settles
  apply rests_of_settles_at unique _ atEnd
  rw [chain_end_of_chain chain]
  exact chain.ends

end Body

end Jumps

end JvmEdit
