import JvmEdit.Libraries.Standard
import JvmEdit.Proofs.Index.Session
import JvmEdit.Proofs.Pass.Run
set_option autoImplicit false

namespace JvmEdit

namespace Node

def kind : Node → NodeKind
  | .class _ => .class
  | .method _ => .method
  | .constructor _ => .constructor
  | .field _ => .field
  | .fieldRead _ => .fieldRead
  | .fieldWrite _ => .fieldWrite
  | .methodReference _ => .methodReference
  | .annotationItem _ _ => .annotationItem
  | .block _ _ => .block

-- What a node is found with: a class, field or method.
def owner : Node → Owner
  | .class id => .class id
  | .method id | .constructor id => .method id
  | .field id => .field id
  | .fieldRead ref | .fieldWrite ref | .methodReference ref => .method ref.method
  | .annotationItem owner _ => owner
  | .block id _ => .method id

-- What a node denotes is there.
def Live (p : Program) : Node → Prop
  | .class id => ∃ c, p.class? id = some c
  | .method id => ∃ m, p.method? id = some m ∧ m.kind = .method
  | .constructor id => ∃ m, p.method? id = some m ∧ m.kind ≠ .method
  | .field id => ∃ f, p.field? id = some f
  | .fieldRead ref => ∃ m, p.method? ref.method = some m ∧
      ∃ i ∈ m.code.toList, i.id = ref.insn ∧ ∃ use, i.operand = .field use ∧ use.mode = .read
  | .fieldWrite ref => ∃ m, p.method? ref.method = some m ∧
      ∃ i ∈ m.code.toList, i.id = ref.insn ∧ ∃ use, i.operand = .field use ∧ use.mode = .write
  | .methodReference ref => ∃ m, p.method? ref.method = some m ∧
      ∃ i ∈ m.code.toList, i.id = ref.insn ∧ ∃ call, i.operand = .call call
  | .annotationItem owner index => index < (owner.annotations p).length
  | .block id index => ∃ m, p.method? id = some m ∧ index < m.graph.blocks.length

end Node

namespace Method

variable (m : Method) (n : InsnId)

theorem mem_field_uses (use : FieldUse) :
    (n, use) ∈ m.fieldUses ↔ ∃ i ∈ m.code.toList, i.id = n ∧ i.operand = .field use := by
  rw [fieldUses, List.mem_filterMap]
  refine exists_congr fun i => and_congr_right fun _ => ?_
  cases i.operand <;> simp

theorem mem_calls (call : Call) :
    (n, call) ∈ m.calls ↔ ∃ i ∈ m.code.toList, i.id = n ∧ i.operand = .call call := by
  rw [calls, List.mem_filterMap]
  refine exists_congr fun i => and_congr_right fun _ => ?_
  cases i.operand <;> simp

end Method

namespace NodeKind

section Members

variable (p : Program) (node : Node)

theorem mem_method_nodes (id : MethodId) (m : Method) (kind : NodeKind) (live : p.method? id = some m) :
    node ∈ methodNodes id m kind ↔
      node.kind = kind ∧ node.owner = .method id ∧ node.Live p ∧ kind ≠ .annotationItem := by
  rcases node with _ | _ | _ | _ | ⟨other, insn⟩ | ⟨other, insn⟩ | ⟨other, insn⟩ | _ | _ <;> cases kind <;>
    simp only [methodNodes, Node.kind, Node.owner, Node.Live, Method.isConstructor, Method.fieldReads,
      Method.fieldWrites, Method.mem_field_uses, Method.mem_calls, List.mem_map, List.mem_filter, List.mem_range,
      Prod.exists] <;> grind

theorem mem_expand (kind : NodeKind) (owner : Owner) :
    node ∈ kind.expand p owner ↔ node.kind = kind ∧ node.owner = owner ∧ node.Live p := by
  cases owner with
  | «class» id | field id =>
      cases kind <;> cases node <;>
        simp [expand, Node.kind, Node.owner, Node.Live, Option.isSome_iff_exists] <;> grind
  | method id =>
      by_cases own : kind = .annotationItem
      · cases own
        cases node <;> (simp [expand, Node.kind, Node.owner, Node.Live]; try grind)
      · cases live : p.method? id with
        | none =>
            have none : kind.expand p (.method id) = [] := by cases kind <;> simp [expand, live] at own ⊢
            rw [none]
            cases node <;> simp [Node.kind, Node.owner, Node.Live] <;> grind
        | some m =>
            have listed : kind.expand p (.method id) = methodNodes id m kind := by
              cases kind <;> simp [expand, live] at own ⊢
            rw [listed, mem_method_nodes p node id m kind live]
            simp only [own, ne_eq, not_false_eq_true, and_true]

instance decidableLive : Decidable (node.Live p) :=
  decidable_of_iff (node ∈ node.kind.expand p node.owner)
    ((mem_expand p node node.kind node.owner).trans (by simp only [true_and]))

end Members

-- The kinds whose nodes are classes, fields and methods; the other kinds are of what these hold.
def isEntity : NodeKind → Bool
  | .class | method | constructor | field => true
  | _ => false

theorem single_constructor (p : Program) (owner : Owner) : (constructor.expand p owner).length ≤ 1 := by
  cases owner with
  | «class» id | field id => exact Nat.zero_le 1
  | method id =>
      simp only [expand, methodNodes]
      split
      · split <;> simp
      · exact Nat.zero_le 1

theorem single_entity (p : Program) (kind : NodeKind) (owner : Owner) (entity : kind.isEntity = true) :
    (kind.expand p owner).length ≤ 1 := by
  cases kind with
  | «class» => exact single_class p owner
  | method => exact single_method p owner
  | constructor => exact single_constructor p owner
  | field => exact single_field p owner
  | fieldRead | fieldWrite | methodReference | annotationItem | block => cases entity

end NodeKind

namespace Nodes

-- What a traversal answers to the calls that find the program in these states, each call with its state.
-- Nothing is answered any more after a call that answers nothing.
def answers (nodes : Nodes) : List Program → List (Program × Node)
  | [] => []
  | p :: later =>
      match nodes.next? p with
      | none => []
      | some (node, nodes) => (p, node) :: nodes.answers later

section Answers

variable (kind : NodeKind) (owners : List Owner)

-- One of these calls came to an owner, and from it on they have answered the nodes that the owner then had,
-- up to those that are pending.
def Opened (calls : List (Program × Node)) (pending : List Node) : Prop :=
  ∃ before q first since, calls = before ++ (q, first) :: since ∧
    ∃ owner ∈ owners, kind.expand q owner = first :: since.map Prod.snd ++ pending

variable (calls : List (Program × Node)) (p : Program) (node : Node)

theorem opened_call (pending : List Node) (opened : Opened kind owners calls (node :: pending)) :
    Opened kind owners (calls ++ [(p, node)]) pending := by
  obtain ⟨before, q, first, since, rfl, owner, listed, nodes⟩ := opened
  refine ⟨before, q, first, since ++ [(p, node)], List.append_assoc .., owner, listed, ?_⟩
  rw [nodes, List.map_append, List.cons_append, List.cons_append, List.append_assoc]
  rfl

theorem opened_advance (after : Nodes) (answered : advance p kind owners = some (node, after)) :
    after.kind = kind ∧ after.owners ⊆ owners ∧ Opened kind owners (calls ++ [(p, node)]) after.pending := by
  induction owners with
  | nil => cases answered
  | cons owner owners ih =>
      rw [advance] at answered
      split at answered
      · obtain ⟨same, fewer, before, q, first, since, split, other, listed, nodes⟩ := ih answered
        exact ⟨same, List.subset_cons_of_subset owner fewer, before, q, first, since, split, other,
          List.mem_cons_of_mem owner listed, nodes⟩
      · next first pending nodes =>
          cases answered
          exact ⟨rfl, List.subset_cons_self owner owners, calls, p, node, [], rfl, owner, List.mem_cons_self, nodes⟩

theorem opened_next (nodes after : Nodes) (ahead : nodes.owners ⊆ owners)
    (opened : nodes.pending = [] ∨ Opened nodes.kind owners calls nodes.pending)
    (answered : nodes.next? p = some (node, after)) :
    after.kind = nodes.kind ∧ after.owners ⊆ owners ∧
      Opened nodes.kind owners (calls ++ [(p, node)]) after.pending := by
  rw [next?] at answered
  split at answered
  · next first pending queued =>
      cases answered
      rw [queued] at opened
      exact ⟨rfl, ahead, opened_call _ _ _ p _ _ (opened.resolve_left (List.cons_ne_nil _ _))⟩
  · obtain ⟨same, fewer, before, q, first, since, split, owner, listed, opened⟩ :=
      opened_advance _ _ calls p node after answered
    exact ⟨same, List.Subset.trans fewer ahead, before, q, first, since, split, owner, ahead listed, opened⟩

theorem opened_answers (nodes : Nodes) (ahead : nodes.owners ⊆ owners)
    (opened : nodes.pending = [] ∨ Opened nodes.kind owners calls nodes.pending)
    (programs : List Program) (earlier later : List (Program × Node))
    (answered : nodes.answers programs = earlier ++ (p, node) :: later) :
    ∃ pending, Opened nodes.kind owners (calls ++ earlier ++ [(p, node)]) pending := by
  induction programs generalizing nodes calls earlier with
  | nil => exact absurd answered.symm (List.append_ne_nil_of_right_ne_nil _ (List.cons_ne_nil _ _))
  | cons q programs ih =>
      rw [answers] at answered
      split at answered
      · exact absurd answered.symm (List.append_ne_nil_of_right_ne_nil _ (List.cons_ne_nil _ _))
      · next first after called =>
          obtain ⟨same, fewer, reached⟩ := opened_next owners calls q first nodes after ahead opened called
          cases earlier with
          | nil =>
              cases answered
              rw [List.append_nil]
              exact ⟨after.pending, reached⟩
          | cons call earlier =>
              obtain ⟨rfl, rest⟩ := List.cons_eq_cons.mp answered
              rw [← same] at reached ⊢
              rw [List.append_cons calls]
              exact ih (calls ++ [(q, first)]) after fewer (.inr reached) earlier rest

end Answers

-- What a call of a traversal answers was live when a call, this one or one before it, came to its owner, and
-- the calls from then on answered the first nodes that this owner had then. A class, method, constructor or
-- field is live when it is answered.
theorem live_when_opened (kind : NodeKind) (p₀ : Program) (programs : List Program)
    (earlier later : List (Program × Node)) (p : Program) (node : Node)
    (answered : (start p₀ kind).answers programs = earlier ++ (p, node) :: later) :
    (node.kind = kind ∧ node.owner ∈ kind.owners p₀) ∧
      (∃ before q first since, earlier ++ [(p, node)] = before ++ (q, first) :: since ∧
        node.Live q ∧ first :: since.map Prod.snd <+: kind.expand q node.owner) ∧
      (node.Live p ↔ node ∈ kind.expand p node.owner) ∧
      (kind.isEntity = true → node.Live p) := by
  obtain ⟨pending, before, q, first, since, split, owner, listed, nodes⟩ :=
    opened_answers (kind.owners p₀) [] p node (start p₀ kind) (List.Subset.refl _) (.inl rfl) programs earlier
      later answered
  rw [List.nil_append] at split
  have asked : (p, node) ∈ (q, first) :: since := by
    have last := congrArg List.getLast? split
    rw [List.getLast?_concat, List.getLast?_append_of_ne_nil _ (List.cons_ne_nil _ _)] at last
    exact List.mem_of_getLast? last.symm
  have among : node ∈ first :: since.map Prod.snd := List.mem_map_of_mem (f := Prod.snd) asked
  obtain ⟨same, rfl, live⟩ := (NodeKind.mem_expand q node kind owner).mp (nodes ▸ List.mem_append_left _ among)
  refine ⟨⟨same, listed⟩, ⟨before, q, first, since, split, live, pending, nodes.symm⟩, ?_, ?_⟩
  · rw [NodeKind.mem_expand]
    exact ⟨fun live => ⟨same, rfl, live⟩, fun ⟨_, _, live⟩ => live⟩
  · intro entity
    have one := NodeKind.single_entity q kind node.owner entity
    rw [show kind.expand q node.owner = _ from nodes, List.cons_append, List.length_cons, List.length_append,
      List.length_map] at one
    obtain rfl : since = [] := List.length_eq_zero_iff.mp (by omega)
    cases List.mem_singleton.mp asked
    exact live

end Nodes

namespace Session

-- A class with some methods that read its one field twice.
def reading (methods : List String) : List SessionAction :=
  let use : FieldUse := ⟨"A", "x", "I", .read, true⟩
  let body (name : String) : List ClassEvent := [.method ⟨name, "()V", none, .staticFlag, [], []⟩,
    .instruction .getStatic (.field use), .instruction .getStatic (.field use), .instruction .returnVoid .simple]
  [.openBuilder, .visit 0 (.header ⟨"A", some "java/lang/Object", [], none, default, 52, [], []⟩),
    .visit 0 (.field ⟨"x", "I", none, .staticFlag, none, []⟩)] ++
      (methods.flatMap body).map (.visit 0) ++ [.visit 0 .classEnd]

-- A method that is deleted at the visit of the one before it is passed over.
theorem live_when_opened_deleted :
    let p := ((start {}).run (reading ["first", "second", "third"])).program
    let q := p.perform (.deleteMethod ⟨7⟩)
    ((Nodes.start p .method).answers [p, q] = [(p, .method ⟨3⟩), (q, .method ⟨11⟩)] ∧
      (Node.method ⟨7⟩).Live p ∧ ¬(Node.method ⟨7⟩).Live q) ∧ (Node.method ⟨11⟩).Live q := by
  intro p q
  have first : (Nodes.start p .method).next? p =
      some (.method ⟨3⟩, ⟨.method, [.method ⟨7⟩, .method ⟨11⟩], []⟩) := by decide +kernel
  have second : (Nodes.mk .method [.method ⟨7⟩, .method ⟨11⟩] []).next? q =
      some (.method ⟨11⟩, ⟨.method, [], []⟩) := by decide +kernel
  have called : (Nodes.start p .method).answers [p, q] = [(p, .method ⟨3⟩)] ++ (q, .method ⟨11⟩) :: [] := by
    rw [Nodes.answers, first]
    dsimp only
    rw [Nodes.answers, second]
    rfl
  refine ⟨⟨called, by decide +kernel, by decide +kernel⟩, ?_⟩
  exact (Nodes.live_when_opened .method p [p, q] _ [] q _ called).2.2.2 rfl

-- A read that is deleted at the visit of the one before it is answered all the same.
theorem read_answered_deleted :
    let p := ((start {}).run (reading ["m"])).program
    let q := p.perform (.deleteInstructions ⟨3⟩ [⟨5⟩])
    let read : Node := .fieldRead ⟨⟨3⟩, ⟨5⟩⟩
    (Nodes.start p .fieldRead).answers [p, q] = [(p, .fieldRead ⟨⟨3⟩, ⟨4⟩⟩), (q, read)] ∧
      read.Live p ∧ ¬read.Live q := by
  intro p q read
  have first : (Nodes.start p .fieldRead).next? p =
      some (.fieldRead ⟨⟨3⟩, ⟨4⟩⟩, ⟨.fieldRead, [], [read]⟩) := by decide +kernel
  refine ⟨?_, by decide +kernel, by decide +kernel⟩
  rw [Nodes.answers, first]
  rfl

end Session

namespace Nodes

theorem advance_smaller (p : Program) (kind : NodeKind) (owners : List Owner) (node : Node) (after : Nodes)
    (answered : advance p kind owners = some (node, after)) : after.owners.length < owners.length := by
  induction owners with
  | nil => cases answered
  | cons owner owners ih =>
      rw [advance] at answered
      split at answered
      · exact Nat.lt_succ_of_lt (ih answered)
      · cases answered
        exact Nat.lt_succ_self _

theorem next?_smaller (p : Program) (nodes : Nodes) (node : Node) (after : Nodes)
    (answered : nodes.next? p = some (node, after)) :
    Prod.Lex (· < ·) (· < ·) (after.owners.length, after.pending.length)
      (nodes.owners.length, nodes.pending.length) := by
  rw [next?] at answered
  split at answered
  · next first pending queued =>
      cases answered
      rw [queued]
      exact .right _ (Nat.lt_succ_self _)
  · exact .left _ _ (advance_smaller p _ _ node after answered)

theorem calling (motive : Nodes → Prop)
    (step : ∀ nodes, (∀ p node after, nodes.next? p = some (node, after) → motive after) → motive nodes)
    (nodes : Nodes) : motive nodes :=
  step nodes fun _ _ after _ => calling motive step after
termination_by (nodes.owners.length, nodes.pending.length)
decreasing_by exact next?_smaller _ nodes _ after ‹_›

theorem kind_next? (p : Program) (nodes : Nodes) (node : Node) (after : Nodes)
    (pure : ∀ other ∈ nodes.pending, other.kind = nodes.kind) (answered : nodes.next? p = some (node, after)) :
    node.kind = nodes.kind ∧ after.kind = nodes.kind ∧ ∀ other ∈ after.pending, other.kind = nodes.kind := by
  rw [next?] at answered
  split at answered
  · next first pending queued =>
      cases answered
      rw [queued, List.forall_mem_cons] at pure
      exact ⟨pure.1, rfl, pure.2⟩
  · obtain ⟨same, _, before, q, first, since, split, owner, _, listed⟩ :=
      opened_advance _ _ [] p node after answered
    cases before with
    | cons call before => exact absurd (congrArg List.length split) (by simp)
    | nil =>
        cases split
        have each : ∀ other ∈ node :: after.pending, other.kind = nodes.kind := fun other among =>
          ((NodeKind.mem_expand p other _ owner).mp (by rw [listed]; exact among)).1
        exact ⟨each node List.mem_cons_self, same, fun other later => each other (List.mem_cons_of_mem _ later)⟩

theorem next?_expand (p : Program) (kind : NodeKind) (owner : Owner) (owners : List Owner) :
    (Nodes.mk kind (owner :: owners) []).next? p = (Nodes.mk kind owners (kind.expand p owner)).next? p := by
  rw [next?, advance, next?]
  cases kind.expand p owner <;> rfl

end Nodes

namespace Pass

-- Visits what a traversal answers, call after call, and lists the calls.
def drive [Libraries] (id : String) (pass : Pass) (calls : List (Program × Node)) (nodes : Nodes) :
    Run (Pass × List (Program × Node)) := do
  let p := (← get).program
  match _answered : nodes.next? p with
  | none => return (pass, calls)
  | some (node, after) => do
      let visited ← guarded id (some node) (pass.interrupted node) (pass.visit node)
      drive id visited (calls ++ [(p, node)]) after
termination_by (nodes.owners.length, nodes.pending.length)
decreasing_by exact Nodes.next?_smaller p nodes node after _answered

section Drive

variable (id : String) (kind : NodeKind)

theorem run_drive_done [Libraries] (pass : Pass) (calls : List (Program × Node)) (nodes : Nodes)
    (c : PassContext) (done : nodes.next? c.program = none) :
    (drive id pass calls nodes).run.run c = (.ok (pass, calls), c) := by
  rw [drive, run_get_bind]
  dsimp only
  split
  · rfl
  · next answered =>
      rw [done] at answered
      cases answered

theorem run_drive_next [Libraries] (pass : Pass) (calls : List (Program × Node))
    (nodes after : Nodes) (c : PassContext) (node : Node) (answered : nodes.next? c.program = some (node, after)) :
    (drive id pass calls nodes).run.run c =
      (do
        let visited ← guarded id (some node) (pass.interrupted node) (pass.visit node)
        drive id visited (calls ++ [(c.program, node)]) after : Run (Pass × List (Program × Node))).run.run c := by
  rw [drive, run_get_bind]
  dsimp only
  split
  · next done =>
      rw [answered] at done
      cases done
  · next answered' =>
      rw [answered] at answered'
      cases answered'
      rfl

theorem run_drive_congr [Libraries] (pass : Pass) (calls : List (Program × Node))
    (nodes other : Nodes) (c : PassContext) (same : nodes.next? c.program = other.next? c.program) :
    (drive id pass calls nodes).run.run c = (drive id pass calls other).run.run c := by
  cases answered : other.next? c.program with
  | none => rw [run_drive_done id pass calls nodes c (same.trans answered), run_drive_done id pass calls other c answered]
  | some call =>
      rw [run_drive_next id pass calls nodes call.2 c call.1 (same.trans answered),
        run_drive_next id pass calls other call.2 c call.1 answered]

def visitNode [Libraries] (state : Pass × Nat) (node : Node) : Run (Pass × Nat) := do
  return (← guarded id (some node) (state.1.interrupted node) (state.1.visit node), state.2 + 1)

-- The pass and the number of calls.
def tally (state : Pass × List (Program × Node)) : Pass × Nat := (state.1, state.2.length)

def FollowsOwners [Libraries] (owners : List Owner) (pending : List Node) : Prop :=
  ∀ pass calls, tally <$> drive id pass calls ⟨kind, owners, pending⟩ = (do
    let state ← pending.foldlM (visitNode id) (pass, calls.length)
    owners.foldlM (visitOwner id kind) state)

theorem run_map_congr {β γ : Type} (f : β → γ) (x y : Run β) (c : PassContext)
    (same : x.run.run c = y.run.run c) : (f <$> x).run.run c = (f <$> y).run.run c := by
  rw [ExceptT.run_map, ExceptT.run_map, StateT.run_map, StateT.run_map, same]

theorem follows_owners_cons [Libraries] (owners : List Owner) (node : Node) (pending : List Node)
    (follows : FollowsOwners id kind owners pending) : FollowsOwners id kind owners (node :: pending) := by
  intro pass calls
  apply ExceptT.ext
  apply StateT.ext
  intro c
  rw [run_map_congr tally _ _ c (run_drive_next id pass calls _ ⟨kind, owners, pending⟩ c node rfl), map_bind,
    List.foldlM_cons, visitNode, bind_assoc, bind_assoc]
  congr 3
  funext pass'
  rw [follows, List.length_append, pure_bind]
  rfl

theorem follows_owners [Libraries] (owners : List Owner) (pending : List Node) :
    FollowsOwners id kind owners pending := by
  induction owners generalizing pending with
  | nil =>
      induction pending with
      | nil =>
          intro pass calls
          apply ExceptT.ext
          apply StateT.ext
          intro c
          rw [ExceptT.run_map, StateT.run_map, run_drive_done id pass calls ⟨kind, [], []⟩ c rfl]
          rfl
      | cons node pending ih => exact follows_owners_cons id kind [] node pending ih
  | cons owner owners ih =>
      induction pending with
      | nil =>
          intro pass calls
          apply ExceptT.ext
          apply StateT.ext
          intro c
          rw [run_map_congr tally _ _ c (run_drive_congr id pass calls _ _ c (Nodes.next?_expand c.program kind owner owners)),
            ih (kind.expand c.program owner) pass calls]
          rfl
      | cons node pending follows => exact follows_owners_cons id kind _ node pending follows

theorem run_eq_drive [Libraries] (pass : Pass) : pass.run = (do
    let (ran, calls) ← drive pass.metadata.id pass [] (.start (← get).program pass.metadata.kind)
    return (← guarded pass.metadata.id none (fun _ => ran) ran.finish, calls.length)) := by
  apply ExceptT.ext
  apply StateT.ext
  intro c
  have follows := follows_owners pass.metadata.id pass.metadata.kind (pass.metadata.kind.owners c.program) [] pass []
  rw [List.foldlM_nil, pure_bind] at follows
  rw [run, run_get_bind, run_get_bind]
  dsimp only
  rw [show (pass, 0) = (pass, ([] : List (Program × Node)).length) from rfl, ← follows, map_eq_pure_bind,
    bind_assoc]
  simp only [pure_bind]
  rfl

theorem run_bind_ok {β γ : Type} (work : Run β) (next : β → Run γ) (c c' : PassContext) (b : γ)
    (ran : (work >>= next).run.run c = (.ok b, c')) :
    ∃ a between, work.run.run c = (.ok a, between) ∧ (next a).run.run between = (.ok b, c') := by
  rw [ExceptT.run_bind, StateT.run_bind] at ran
  rcases first : work.run.run c with ⟨a | a, between⟩
  · rw [first] at ran
    cases ran
  · rw [first] at ran
    exact ⟨a, between, rfl, ran⟩

theorem answers_drive [Libraries] (nodes : Nodes) (pass ran : Pass)
    (calls all : List (Program × Node)) (c after : PassContext)
    (done : (drive id pass calls nodes).run.run c = (.ok (ran, all), after)) :
    ∃ made, all = calls ++ made ∧ nodes.answers (made.map Prod.fst ++ [after.program]) = made := by
  induction nodes using Nodes.calling generalizing pass calls c with
  | step nodes ih =>
      cases answered : nodes.next? c.program with
      | none =>
          rw [run_drive_done id pass calls nodes c answered] at done
          cases done
          refine ⟨[], (List.append_nil _).symm, ?_⟩
          rw [List.map_nil, List.nil_append, Nodes.answers, answered]
      | some call =>
          obtain ⟨node, later⟩ := call
          rw [run_drive_next id pass calls nodes later c node answered] at done
          obtain ⟨pass', between, -, rest⟩ := run_bind_ok _ _ c after _ done
          obtain ⟨made, rfl, so⟩ := ih c.program node later answered pass' _ between rest
          refine ⟨(c.program, node) :: made, List.append_assoc .., ?_⟩
          rw [List.map_cons, List.cons_append, Nodes.answers, answered]
          exact congrArg _ so

end Drive

end Pass

end JvmEdit
