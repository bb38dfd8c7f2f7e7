import JvmEdit.Proofs.Flow.Expansion
import JvmEdit.Proofs.Jumps.Threaded
set_option autoImplicit false

namespace JvmEdit

namespace Jumps

-- A chain of unconditional jumps from the label comes to an end.
def Ends (code : Stream) (label : LabelId) : Prop := ∃ path, Chain code label path

-- A body after its plan has been carried out, as a body.
def rewritten (code : Stream) (next : Nat) : Stream := ⟨threaded code next⟩

section Chains

variable {code : Stream} {label target : LabelId}

theorem ends_of_still (none : hop? code label = none) : Ends code label := ⟨[], .done none⟩

theorem ends_hop_iff (hops : hop? code label = some target) : Ends code label ↔ Ends code target := by
  constructor
  · intro ⟨path, chain⟩
    cases chain with
    | done none => cases none.symm.trans hops
    | hop some on =>
        cases some.symm.trans hops
        exact ⟨_, on⟩
  · intro ⟨path, chain⟩
    exact ⟨_, .hop hops chain⟩

theorem chain_end_of_still (none : hop? code label = none) : chainEnd code label = label :=
  chain_end_of_chain (.done none)

theorem hop?_chain_end (ends : Ends code label) : hop? code (chainEnd code label) = none := by
  obtain ⟨path, chain⟩ := ends
  rw [chain_end_of_chain chain]
  exact chain.ends

theorem ends_chain_end_iff : Ends code (chainEnd code label) ↔ Ends code label := by
  by_cases ends : Ends code label
  · exact iff_of_true (ends_of_still (hop?_chain_end ends)) ends
  · rw [chain_end_endless (not_exists.mp ends)]

end Chains

theorem targets_retarget (f : LabelId → LabelId) (i : Instruction) :
    (retarget f i).targets = i.targets.map f := by
  rw [retarget]
  cases marker : i.isLabel with
  | true =>
      rw [if_pos rfl, Flow.targets_of_is_label marker]
      rfl
  | false =>
      rw [if_neg Bool.false_ne_true]
      exact Operand.targets_map_labels f i.operand

section Rewritten

variable (code : Stream) (next : Nat)

theorem threaded_cases {p : Nat} {i' : Instruction} (there : (threaded code next)[p]? = some i') :
    ∃ i, code.toList[p]? = some i ∧
      ((plan code).exit? i = none ∧ i' = retarget (plan code).finish i ∨
        ∃ opcode n, (plan code).exit? i = some opcode ∧ i' = ⟨n, opcode, .simple⟩) := by
  obtain ⟨i, n, here, _, same⟩ := threaded_back code next there
  refine ⟨i, here, ?_⟩
  rw [carriedOut] at same
  cases exits : (plan code).exit? i with
  | none =>
      rw [exits] at same
      exact .inl ⟨rfl, same⟩
  | some opcode =>
      rw [exits] at same
      exact .inr ⟨opcode, ⟨n⟩, rfl, same⟩

theorem label_position?_rewritten (label : LabelId) :
    (rewritten code next).labelPosition? label = code.labelPosition? label := by
  have marked : ∀ is : List Instruction, is.findIdx? (·.label? = some label) =
      (is.map Instruction.label?).findIdx? (· = some label) := by
    intro is
    rw [List.findIdx?_map]
    rfl
  have same : (rewritten code next).toList.map Instruction.label? =
      code.toList.map Instruction.label? := by
    apply List.ext_getElem?
    intro p
    rw [List.getElem?_map, List.getElem?_map]
    exact label?_threaded code next p
  rw [Stream.labelPosition?, Stream.labelPosition?, marked, marked, same]

theorem rests_back {p q : Nat} (rests : Rests (threaded code next) p q) : Rests code.toList p q := by
  induction rests with
  | stop there real =>
      obtain ⟨i, n, here, _, rfl⟩ := threaded_back code next there
      exact .stop here ((is_label_carried_out _ _ _).symm.trans real)
  | label there marker _ ih =>
      obtain ⟨i, n, here, _, rfl⟩ := threaded_back code next there
      exact .label here ((is_label_carried_out _ _ _).symm.trans marker) ih

theorem real_at_label?_rewritten {label : LabelId} {i' : Instruction}
    (there : (rewritten code next).realAtLabel? label = some i') : ∃ i ∈ code.toList, ∃ n,
      code.realAtLabel? label = some i ∧ i' = carriedOut (plan code) ⟨n⟩ i := by
  obtain ⟨p, found, first⟩ := Option.bind_eq_some_iff.mp there
  obtain ⟨q, rests, after⟩ := (find?_real_iff _ p i').mp first
  obtain ⟨i, n, here, _, same⟩ := threaded_back code next after
  refine ⟨i, List.mem_of_getElem? here, n, ?_, same⟩
  rw [label_position?_rewritten] at found
  exact Option.bind_eq_some_iff.mpr
    ⟨p, found, (find?_real_iff _ p i).mpr ⟨q, rests_back code next rests, here⟩⟩

theorem real_at_label?_onward {label : LabelId} {i : Instruction} (real : code.realAtLabel? label = some i) :
    i ∈ code.toList ∧ ∃ n, (rewritten code next).realAtLabel? label =
      some (carriedOut (plan code) ⟨n⟩ i) := by
  obtain ⟨p, found, first⟩ := Option.bind_eq_some_iff.mp real
  obtain ⟨q, rests, here⟩ := (find?_real_iff _ p i).mp first
  obtain ⟨n, _, after⟩ := threaded_at code next here
  refine ⟨List.mem_of_getElem? here, n, ?_⟩
  rw [← label_position?_rewritten code next] at found
  exact Option.bind_eq_some_iff.mpr
    ⟨p, found, (find?_real_iff _ p _).mpr ⟨q, rests_threaded code next rests, after⟩⟩

theorem goto?_carried_out {i : Instruction} (member : i ∈ code.toList) {returned : InsnId}
    {target' : LabelId} (isGoto : goto? (carriedOut (plan code) returned i) = some target') :
    ∃ target, goto? i = some target ∧ target' = chainEnd code target ∧ (plan code).exit? i = none := by
  obtain ⟨away, goes⟩ := (goto?_iff _ target').mp isGoto
  obtain ⟨exits, target, before⟩ := jump_of_carried_out goes
  obtain ⟨sameOpcode, goes'⟩ := carried_out_jump code member before exits returned
  cases goes.symm.trans goes'
  exact ⟨target, (goto?_iff i target).mpr ⟨sameOpcode ▸ away, before⟩, rfl, exits⟩

theorem hop?_rewritten {label target' : LabelId}
    (hops : hop? (rewritten code next) label = some target') :
    ∃ target, hop? code label = some target ∧ target' = chainEnd code target := by
  obtain ⟨i', there, isGoto'⟩ := Option.bind_eq_some_iff.mp hops
  obtain ⟨i, member, n, real, rfl⟩ := real_at_label?_rewritten code next there
  obtain ⟨target, isGoto, same, _⟩ := goto?_carried_out code member isGoto'
  exact ⟨target, Option.bind_eq_some_iff.mpr ⟨i, real, isGoto⟩, same⟩

theorem still_rewritten {label : LabelId} (none : hop? code label = none) :
    hop? (rewritten code next) label = .none := by
  rw [Option.eq_none_iff_forall_ne_some]
  intro target' hops
  obtain ⟨target, before, _⟩ := hop?_rewritten code next hops
  cases none.symm.trans before

theorem ends_of_exit {i : Instruction} (member : i ∈ code.toList) {opcode : Opcode}
    (exits : (plan code).exit? i = some opcode) :
    ∃ target, goto? i = some target ∧ Ends code target := by
  obtain ⟨target, r, isGoto, real, returns, _⟩ := (exit?_iff code i member opcode).mp exits
  refine ⟨target, isGoto, ends_chain_end_iff.mp (ends_of_still ?_)⟩
  rw [hop?, real, Option.bind_some, Option.eq_none_iff_forall_ne_some]
  intro other isGoto'
  have away := ((goto?_iff r other).mp isGoto').1
  rw [is_unconditional_branch_of_is_return _ returns] at away
  cases away

theorem ends_of_rewritten {label : LabelId} (ends : Ends (rewritten code next) label) :
    Ends code label := by
  obtain ⟨path, chain⟩ := ends
  induction chain with
  | @done label none =>
      cases hops : hop? code label with
      | none => exact ends_of_still hops
      | some target =>
          obtain ⟨i, real, isGoto⟩ := Option.bind_eq_some_iff.mp hops
          obtain ⟨member, n, there⟩ := real_at_label?_onward code next real
          cases exits : (plan code).exit? i with
          | some opcode =>
              obtain ⟨target', isGoto', ends⟩ := ends_of_exit code member exits
              cases isGoto.symm.trans isGoto'
              exact (ends_hop_iff hops).mpr ends
          | none =>
              obtain ⟨away, goes⟩ := (goto?_iff i target).mp isGoto
              obtain ⟨sameOpcode, goes'⟩ := carried_out_jump code member goes exits ⟨n⟩
              have stays := (goto?_iff _ _).mpr ⟨sameOpcode ▸ away, goes'⟩
              rw [hop?, there, Option.bind_some, stays] at none
              cases none
  | @hop label target' path some _ ih =>
      obtain ⟨target, hops, rfl⟩ := hop?_rewritten code next some
      exact (ends_hop_iff hops).mpr (ends_chain_end_iff.mp ih)

theorem chain_end_rewritten (label : LabelId) :
    chainEnd (rewritten code next) (chainEnd code label) = chainEnd code label := by
  by_cases ends : Ends code label
  · exact chain_end_of_still (still_rewritten code next (hop?_chain_end ends))
  · rw [chain_end_endless (not_exists.mp ends)]
    exact chain_end_endless (not_exists.mp fun again => ends (ends_of_rewritten code next again))

theorem target_rewritten {i' : Instruction} (member : i' ∈ (rewritten code next).toList)
    {label' : LabelId} (named : label' ∈ i'.targets) : ∃ label, label' = chainEnd code label := by
  obtain ⟨p, there⟩ := List.mem_iff_getElem?.mp member
  obtain ⟨i, here, ⟨_, rfl⟩ | ⟨opcode, n, _, rfl⟩⟩ := threaded_cases code next there
  · rw [targets_retarget] at named
    obtain ⟨label, among, rfl⟩ := List.mem_map.mp named
    exact ⟨label, finish_eq code label ⟨i, List.mem_of_getElem? here, among⟩⟩
  · cases named

theorem all_targets_fixed {label : LabelId} (named : label ∈ allTargets (rewritten code next)) :
    chainEnd (rewritten code next) label = label := by
  obtain ⟨i', member, named⟩ := (mem_all_targets _ label).mp named
  obtain ⟨label, rfl⟩ := target_rewritten code next member named
  exact chain_end_rewritten code next label

theorem no_ends_rewritten : endsOf (rewritten code next) = .empty := by
  have skipped : ∀ labels : List LabelId, (∀ label ∈ labels, chainEnd (rewritten code next) label = label) →
      labels.foldl (fun t label =>
        let last := chainEnd (rewritten code next) label
        if last = label then t else t.insert label last) (Table.empty : Table LabelId LabelId) = .empty := by
    intro labels fixed
    induction labels with
    | nil => rfl
    | cons label labels ih =>
        rw [List.foldl_cons, if_pos (fixed label List.mem_cons_self)]
        exact ih fun other member => fixed other (List.mem_cons_of_mem _ member)
  exact skipped _ fun label named => all_targets_fixed code next named

theorem exit?_rewritten {i' : Instruction} (member : i' ∈ (rewritten code next).toList) :
    (plan (rewritten code next)).exit? i' = none := by
  rw [Option.eq_none_iff_forall_ne_some]
  intro opcode exits
  obtain ⟨target', r', isGoto', real', returns, _⟩ := (exit?_iff _ i' member opcode).mp exits
  obtain ⟨p, there⟩ := List.mem_iff_getElem?.mp member
  obtain ⟨i, n, here, _, rfl⟩ := threaded_back code next there
  have before := List.mem_of_getElem? here
  obtain ⟨target, isGoto, rfl, stays⟩ := goto?_carried_out code before isGoto'
  rw [chain_end_rewritten] at real'
  obtain ⟨r, memberR, m, real, rfl⟩ := real_at_label?_rewritten code next real'
  cases exitsR : (plan code).exit? r with
  | none =>
      -- The return stood there before, and the jump would have become one.
      rw [carriedOut, exitsR, (survives_retarget _ r).opcode] at returns
      have wasExit := (exit?_iff code i before r.opcode).mpr ⟨target, r, isGoto, real, returns, rfl⟩
      cases stays.symm.trans wasExit
  | some opcode =>
      -- The return is new, so the chain went on.
      obtain ⟨further, isGotoR, ends⟩ := ends_of_exit code memberR exitsR
      have hops : hop? code (chainEnd code target) = some further := by
        rw [hop?, real, Option.bind_some, isGotoR]
      have last := hop?_chain_end (ends_chain_end_iff.mp ((ends_hop_iff hops).mpr ends))
      cases last.symm.trans hops

theorem is_planned_rewritten : isPlanned (plan (rewritten code next)) (rewritten code next) = false := by
  rw [isPlanned, Bool.or_eq_false_iff, List.any_eq_false]
  constructor
  · have none : (plan (rewritten code next)).ends = .empty := no_ends_rewritten code next
    rw [none]
    rfl
  · intro i' member
    rw [exit?_rewritten code next member]
    exact Bool.false_ne_true

end Rewritten

end Jumps

end JvmEdit
