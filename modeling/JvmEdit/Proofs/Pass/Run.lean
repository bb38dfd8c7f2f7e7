import JvmEdit.Pass.Pipeline
import JvmEdit.Proofs.Data.Table
set_option autoImplicit false

namespace JvmEdit

section Yields

variable {ε σ α β : Type}

-- Started in a state, the work succeeds, and of its answer and of the state it leaves the promise holds.
def Yields (work : ExceptT ε (StateM σ) α) (s : σ) (promise : α → σ → Prop) : Prop :=
  ∃ a s', work.run.run s = (.ok a, s') ∧ promise a s'

theorem yields_pure (a : α) (s : σ) (promise : α → σ → Prop) (kept : promise a s) :
    Yields (pure a : ExceptT ε (StateM σ) α) s promise := ⟨a, s, rfl, kept⟩

theorem yields_get (s : σ) (promise : σ → σ → Prop) (kept : promise s s) :
    Yields (get : ExceptT ε (StateM σ) σ) s promise := ⟨s, s, rfl, kept⟩

theorem yields_bind (work : ExceptT ε (StateM σ) α) (next : α → ExceptT ε (StateM σ) β) (s : σ)
    (between : α → σ → Prop) (promise : β → σ → Prop) (first : Yields work s between)
    (later : ∀ a s', between a s' → Yields (next a) s' promise) : Yields (work >>= next) s promise := by
  obtain ⟨a, s', ran, reached⟩ := first
  obtain ⟨b, s'', ranNext, kept⟩ := later a s' reached
  refine ⟨b, s'', ?_, kept⟩
  rw [ExceptT.run_bind, StateT.run_bind, ran]
  exact ranNext

theorem run_get_bind (next : σ → ExceptT ε (StateM σ) β) (s : σ) :
    (get >>= next).run.run s = (next s).run.run s := rfl

theorem yields_get_bind (next : σ → ExceptT ε (StateM σ) β) (s : σ) (promise : β → σ → Prop)
    (yields : Yields (next s) s promise) : Yields (get >>= next) s promise := by
  rwa [Yields, run_get_bind]

theorem yields_mono (work : ExceptT ε (StateM σ) α) (s : σ) (promise weaker : α → σ → Prop)
    (yields : Yields work s promise) (implies : ∀ a s', promise a s' → weaker a s') :
    Yields work s weaker := by
  obtain ⟨a, s', ran, kept⟩ := yields
  exact ⟨a, s', ran, implies a s' kept⟩

theorem yields_foldl_m (f : β → α → ExceptT ε (StateM σ) β) (invariant : β → σ → Prop) (xs : List α)
    (round : ∀ b s, ∀ x ∈ xs, invariant b s → Yields (f b x) s invariant) (b : β) (s : σ)
    (start : invariant b s) : Yields (xs.foldlM f b) s invariant := by
  induction xs generalizing b s with
  | nil => exact yields_pure b s invariant start
  | cons x xs ih =>
      rw [List.foldlM_cons]
      apply yields_bind _ _ s invariant invariant
      · exact round b s x List.mem_cons_self start
      · intro b' s' reached
        exact ih (fun b s y member => round b s y (List.mem_cons_of_mem _ member)) b' s' reached

theorem yields_foldl_m_done (f : β → α → ExceptT ε (StateM σ) β) (invariant : List α → β → σ → Prop)
    (done xs : List α) (round : ∀ before x rest b s, before ++ x :: rest = done ++ xs → invariant before b s →
      Yields (f b x) s (invariant (before ++ [x])))
    (b : β) (s : σ) (start : invariant done b s) :
    Yields (xs.foldlM f b) s (invariant (done ++ xs)) := by
  induction xs generalizing done b s with
  | nil =>
      rw [List.append_nil]
      exact yields_pure b s (invariant done) start
  | cons x xs ih =>
      rw [List.foldlM_cons]
      apply yields_bind _ _ s _ _ (round done x xs b s rfl start)
      intro b' s' reached
      rw [List.append_cons] at round ⊢
      exact ih (done ++ [x]) round b' s' reached

theorem yields_foldl_m_reached (f : β → α → ExceptT ε (StateM σ) β) (invariant : List α → β → σ → Prop)
    (xs : List α) (b : β) (s : σ) (start : invariant [] b s)
    (round : ∀ before x rest b' s', before ++ x :: rest = xs →
      (before.foldlM f b).run.run s = (.ok b', s') → invariant before b' s' →
        Yields (f b' x) s' (invariant (before ++ [x]))) :
    Yields (xs.foldlM f b) s (invariant xs) := by
  let reached (done : List α) (b' : β) (s' : σ) : Prop :=
    (done.foldlM f b).run.run s = (.ok b', s') ∧ invariant done b' s'
  have all : Yields (xs.foldlM f b) s (reached xs) := by
    apply yields_foldl_m_done f reached [] xs _ b s ⟨rfl, start⟩
    intro before x rest b' s' listed so
    obtain ⟨b'', s'', ran, kept⟩ := round before x rest b' s' listed so.1 so.2
    refine ⟨b'', s'', ran, ?_, kept⟩
    rw [List.foldlM_append, ExceptT.run_bind, StateT.run_bind, so.1]
    have last : [x].foldlM f b' = f b' x := by rw [List.foldlM_cons]; simp only [List.foldlM_nil, bind_pure]
    exact (congrArg (fun work => work.run.run s') last).trans ran
  exact yields_mono _ s _ _ all fun _ _ so => so.2

theorem yields_for_m (f : α → ExceptT ε (StateM σ) PUnit) (invariant : σ → Prop) (xs : List α)
    (round : ∀ x ∈ xs, ∀ s, invariant s → Yields (f x) s fun _ s' => invariant s') (s : σ)
    (start : invariant s) : Yields (xs.forM f) s fun _ s' => invariant s' := by
  induction xs generalizing s with
  | nil => exact yields_pure PUnit.unit s _ start
  | cons x xs ih =>
      apply yields_bind _ _ s (fun _ s' => invariant s') _ (round x List.mem_cons_self s start)
      intro _ s' reached
      exact ih (fun y member => round y (List.mem_cons_of_mem _ member)) s' reached

end Yields

namespace Work

variable {c : PassContext}

theorem yields_program (promise : Program → PassContext → Prop) (kept : promise c.program c) :
    Yields program c promise := ⟨c.program, c, rfl, kept⟩

theorem yields_edit (f : PassContext → Except EditError PassContext) (c' : PassContext)
    (promise : Unit → PassContext → Prop) (done : f c = .ok c') (kept : promise () c') :
    Yields (edit f) c promise := by
  apply yields_get_bind
  rw [done]
  exact ⟨(), c', rfl, kept⟩

theorem yields_record (target : Option ChangeTarget) (message : String)
    (promise : Unit → PassContext → Prop) (kept : ∀ changes, promise () { c with changes }) :
    Yields (record target message) c promise := by
  cases target with
  | none => exact yields_pure () c promise (kept c.changes)
  | some target => exact ⟨(), c.record target message, rfl, kept _⟩

end Work

namespace NodeKind

theorem expand_method (p : Program) (owner : Owner) :
    (method.expand p owner = [] ∧
      ∀ id m, owner = .method id → p.method? id = some m → m.isConstructor = true) ∨
    ∃ id m, owner = .method id ∧ p.method? id = some m ∧ m.isConstructor = false ∧
      method.expand p owner = [.method id] := by
  cases owner with
  | «class» id => exact .inl ⟨rfl, fun _ _ same => by cases same⟩
  | field id => exact .inl ⟨rfl, fun _ _ same => by cases same⟩
  | method id =>
      cases live : p.method? id with
      | none =>
          refine .inl ⟨by simp [expand, live], ?_⟩
          intro other m same live'
          cases same
          rw [live] at live'
          cases live'
      | some m =>
          cases special : m.isConstructor with
          | true =>
              refine .inl ⟨by simp [expand, live, methodNodes, special], ?_⟩
              intro other m' same live'
              cases same
              cases live.symm.trans live'
              exact special
          | false =>
              exact .inr ⟨id, m, rfl, live, special,
                by simp [expand, live, methodNodes, special]⟩

theorem method_of_one (p : Program) (owner : Owner) (node : Node) (one : method.expand p owner = [node]) :
    ∃ id m, owner = .method id ∧ node = .method id ∧ p.method? id = some m ∧ m.isConstructor = false := by
  rcases expand_method p owner with ⟨none, _⟩ | ⟨id, m, isOwner, live, usual, isOne⟩
  · cases none.symm.trans one
  · cases isOne.symm.trans one
    exact ⟨id, m, isOwner, rfl, live, usual⟩

theorem single_method (p : Program) (owner : Owner) : (method.expand p owner).length ≤ 1 := by
  rcases expand_method p owner with ⟨none, _⟩ | ⟨_, _, _, _, _, one⟩
  · simp [none]
  · simp [one]

theorem single_class (p : Program) (owner : Owner) : (NodeKind.class.expand p owner).length ≤ 1 := by
  cases owner with
  | «class» id =>
      rw [expand]
      split <;> simp
  | field id => exact Nat.zero_le 1
  | method id =>
      simp only [expand, methodNodes]
      split <;> exact Nat.zero_le 1

theorem single_field (p : Program) (owner : Owner) : (field.expand p owner).length ≤ 1 := by
  cases owner with
  | field id =>
      rw [expand]
      split <;> simp
  | «class» id => exact Nat.zero_le 1
  | method id =>
      simp only [expand, methodNodes]
      split <;> exact Nat.zero_le 1

end NodeKind

namespace Pass

theorem run_guarded {α : Type} (id : String) (node : Option Node) (left : PassContext → Pass)
    (work : Work α) (c : PassContext) : (guarded id node left work).run.run c =
      match work.run.run c with
      | (.ok value, after) => (.ok value, after)
      | (.error fault, after) => (.error (⟨id, node, fault⟩, left c), after) := by
  simp only [guarded, ExceptT.run_mk, StateT.run_bind, StateT.run_get, pure_bind]
  rcases work.run.run c with ⟨_ | _, _⟩ <;> rfl

theorem yields_guarded {α : Type} (id : String) (node : Option Node) (left : PassContext → Pass)
    (work : Work α) (c : PassContext) (promise : α → PassContext → Prop) (yields : Yields work c promise) :
    Yields (guarded id node left work) c promise := by
  obtain ⟨a, c', ran, kept⟩ := yields
  refine ⟨a, c', ?_, kept⟩
  rw [run_guarded, ran]

theorem yields_counted {α : Type} (id : String) (node : Option Node) (left : PassContext → Pass)
    (work : Work α) (count : Nat) (c : PassContext) (promise : α → PassContext → Prop)
    (yields : Yields work c promise) :
    Yields (do return (← guarded id node left work, count) : Run (α × Nat)) c
      fun counted after => promise counted.1 after := by
  apply yields_bind _ _ c promise _ (yields_guarded id node left work c promise yields)
  intro value after kept
  exact yields_pure (value, count) after _ kept

theorem yields_single [Libraries] (id : String) (kind : NodeKind) (state : Pass × Nat)
    (owner : Owner) (c : PassContext)
    (promise : Pass → PassContext → Prop) (single : (kind.expand c.program owner).length ≤ 1)
    (skips : kind.expand c.program owner = [] → promise state.1 c)
    (visits : ∀ node, kind.expand c.program owner = [node] → Yields (state.1.visit node) c promise) :
    Yields (visitOwner id kind state owner) c fun state after => promise state.1 after := by
  apply yields_get_bind
  cases nodes : kind.expand c.program owner with
  | nil => exact yields_pure state c _ (skips nodes)
  | cons node others =>
      rw [nodes] at single
      obtain rfl : others = [] :=
        List.length_eq_zero_iff.mp (Nat.le_zero.mp (Nat.le_of_succ_le_succ single))
      dsimp only
      rw [List.foldlM_cons]
      apply yields_bind _ _ c _ _ (yields_counted id (some node) _ _ _ c promise (visits node nodes))
      intro state after kept
      exact yields_pure state after _ kept

theorem yields_run [Libraries] (pass : Pass) (c : PassContext) (invariant : Pass → PassContext → Prop)
    (start : invariant pass c)
    (visits : ∀ pass c node, invariant pass c → Yields (pass.visit node) c invariant)
    (finishes : ∀ pass c, invariant pass c → Yields pass.finish c invariant) :
    Yields pass.run c fun ran after => invariant ran.1 after := by
  have visited : ∀ state c owner, invariant (Prod.fst state) c →
      Yields (visitOwner pass.metadata.id pass.metadata.kind state owner) c
        fun state c => invariant state.1 c := by
    intro state c owner reached
    apply yields_get_bind
    apply yields_foldl_m
    · intro state c node _ reached
      exact yields_counted _ _ _ _ _ c invariant (visits state.1 c node reached)
    · exact reached
  apply yields_get_bind
  apply yields_bind _ _ c fun state c => invariant state.1 c
  · apply yields_foldl_m
    · intro state c owner _ reached
      exact visited state c owner reached
    · exact start
  · intro state c reached
    exact yields_counted _ _ _ _ _ c invariant (finishes state.1 c reached)

section Owners

variable [Libraries] (pass : Pass) (c : PassContext)
  (invariant : List Owner → Pass → PassContext → Prop) (promise : Pass → PassContext → Prop)
  (single : ∀ p owner, (pass.metadata.kind.expand p owner).length ≤ 1) (start : invariant [] pass c)

include single start

theorem yields_run_listed
    (skips : ∀ done owner rest pass' now, done ++ owner :: rest = pass.metadata.kind.owners c.program →
      invariant done pass' now → pass.metadata.kind.expand now.program owner = [] →
        invariant (done ++ [owner]) pass' now)
    (visits : ∀ done owner rest pass' now node,
      done ++ owner :: rest = pass.metadata.kind.owners c.program → invariant done pass' now →
        pass.metadata.kind.expand now.program owner = [node] →
          Yields (pass'.visit node) now (invariant (done ++ [owner])))
    (finishes : ∀ pass' after, invariant (pass.metadata.kind.owners c.program) pass' after →
      Yields pass'.finish after promise) :
    Yields pass.run c fun ran after => promise ran.1 after := by
  have visited : ∀ done owner rest state c', done ++ owner :: rest = pass.metadata.kind.owners c.program →
      invariant done (Prod.fst state) c' →
        Yields (visitOwner pass.metadata.id pass.metadata.kind state owner) c'
          fun state c' => invariant (done ++ [owner]) state.1 c' := by
    intro done owner rest state c' listed reached
    apply yields_single _ _ state owner c' (invariant (done ++ [owner])) (single c'.program owner)
    · exact skips done owner rest state.1 c' listed reached
    · exact fun node => visits done owner rest state.1 c' node listed reached
  apply yields_get_bind
  apply yields_bind _ _ c fun state after => invariant (pass.metadata.kind.owners c.program) state.1 after
  · apply yields_foldl_m_done _ (fun done state after => invariant done (Prod.fst state) after) []
      (pass.metadata.kind.owners c.program) _ (pass, 0) c start
    intro done owner rest state c' listed reached
    exact visited done owner rest state c' listed reached
  · intro state after reached
    exact yields_counted _ _ _ _ _ after promise (finishes state.1 after reached)

theorem yields_run_owners
    (skips : ∀ done pass' c owner, invariant done pass' c →
      pass.metadata.kind.expand c.program owner = [] → invariant (done ++ [owner]) pass' c)
    (visits : ∀ done pass' c owner node, invariant done pass' c →
      pass.metadata.kind.expand c.program owner = [node] →
        Yields (pass'.visit node) c (invariant (done ++ [owner])))
    (finishes : ∀ pass' after, invariant (pass.metadata.kind.owners c.program) pass' after →
      Yields pass'.finish after promise) :
    Yields pass.run c fun ran after => promise ran.1 after := by
  apply yields_run_listed pass c invariant promise single start
  · exact fun done owner _ pass' now _ => skips done pass' now owner
  · exact fun done owner _ pass' now node _ => visits done pass' now owner node
  · exact finishes

end Owners

section Settling

variable (pass : Pass) (methods : pass.metadata.kind = .method) (keeps : Program → Prop)
  (settled : Method → Prop)

-- What holds of a pass over methods once some of them are done.
structure Tidied (c : PassContext) (done : List Owner) (now : Pass) (after : PassContext) : Prop where
  same : now = pass
  keeps : keeps after.program
  old : ∀ id, (after.program.method? id).isSome → (c.program.method? id).isSome
  settled : ∀ id m, .method id ∈ done → after.program.method? id = some m → m.isConstructor = false →
    settled m

-- A visit settles its method and leaves the others as settled as they were.
def SettlesEach [Libraries] : Prop := ∀ c id m, keeps c.program → c.program.method? id = some m →
  Yields (pass.visit (.method id)) c fun now after => now = pass ∧ keeps after.program ∧
    ∀ other m', after.program.method? other = some m' → other = id ∧ settled m' ∨
      other ≠ id ∧ ∃ before, c.program.method? other = some before ∧ m'.kind = before.kind ∧
        (settled before → settled m')

variable {pass keeps settled} {c : PassContext} {done : List Owner}

theorem Tidied.skip {now : Pass} {after : PassContext} {owner : Owner}
    (reached : Tidied pass keeps settled c done now after)
    (none : NodeKind.method.expand after.program owner = []) :
    Tidied pass keeps settled c (done ++ [owner]) now after := by
  refine { reached with settled := ?_ }
  intro id m member live usual
  rcases List.mem_append.mp member with earlier | last
  · exact reached.settled id m earlier live usual
  · rcases NodeKind.expand_method after.program owner with ⟨_, special⟩ | ⟨_, _, _, _, _, one⟩
    · rw [special id m (List.mem_singleton.mp last).symm live] at usual
      cases usual
    · cases none.symm.trans one

theorem Tidied.visited {now : Pass} {before after : PassContext} {id : MethodId} {m : Method}
    (reached : Tidied pass keeps settled c done now before) (live : before.program.method? id = some m)
    (kept : keeps after.program)
    (rows : ∀ other m', after.program.method? other = some m' → other = id ∧ settled m' ∨
      other ≠ id ∧ ∃ m, before.program.method? other = some m ∧ m'.kind = m.kind ∧
        (settled m → settled m')) :
    Tidied pass keeps settled c (done ++ [.method id]) pass after where
  same := rfl
  keeps := kept
  old other present := by
    obtain ⟨m', live'⟩ := Option.isSome_iff_exists.mp present
    apply reached.old
    rcases rows other m' live' with ⟨rfl, _⟩ | ⟨_, _, present, _⟩
    · exact Option.isSome_of_mem live
    · exact Option.isSome_of_mem present
  settled other m' member live' usual := by
    rcases rows other m' live' with ⟨_, isSettled⟩ | ⟨apart, m, present, kind, carries⟩
    · exact isSettled
    · rcases List.mem_append.mp member with earlier | last
      · apply carries
        apply reached.settled other m earlier present
        rwa [Method.isConstructor, ← kind]
      · cases List.mem_singleton.mp last
        exact absurd rfl apart

variable (pass keeps settled)

include methods

theorem yields_run_settles [Libraries] (visits : SettlesEach pass keeps settled)
    (finishes : ∀ c, Yields pass.finish c fun _ after => after = c) (start : keeps c.program) :
    Yields pass.run c fun _ after => keeps after.program ∧
      ∀ id m, after.program.method? id = some m → m.isConstructor = false → settled m := by
  have single : ∀ p owner, (pass.metadata.kind.expand p owner).length ≤ 1 :=
    methods ▸ NodeKind.single_method
  apply yields_run_owners pass c (Tidied pass keeps settled c) (fun _ after => keeps after.program ∧
    ∀ id m, after.program.method? id = some m → m.isConstructor = false → settled m) single
  · exact ⟨rfl, start, fun _ present => present, fun _ _ member => by cases member⟩
  · intro done now after owner reached none
    exact reached.skip (methods ▸ none)
  · intro done now before owner node reached one
    rw [methods] at one
    obtain ⟨id, m, rfl, rfl, live, _⟩ := NodeKind.method_of_one before.program owner node one
    rw [reached.same]
    apply yields_mono _ before _ _ (visits before id m reached.keeps live)
    intro now after visited
    obtain ⟨rfl, kept, rows⟩ := visited
    exact reached.visited live kept rows
  · intro now after reached
    rw [reached.same]
    apply yields_mono _ after _ _ (finishes after)
    intro _ after' same
    subst same
    refine ⟨reached.keeps, ?_⟩
    intro id m live usual
    have listed : id ∈ c.program.methodIds :=
      (Table.mem_keys_iff _ id).mpr (Option.isSome_iff_exists.mp (reached.old id (Option.isSome_of_mem live)))
    apply reached.settled id m _ live usual
    rw [methods]
    exact List.mem_map_of_mem listed

theorem yields_run_settled [Libraries] (visits : ∀ id m, c.program.method? id = some m → settled m →
      Yields (pass.visit (.method id)) c fun now after => now = pass ∧ after = c)
    (finishes : Yields pass.finish c fun _ after => after = c)
    (all : ∀ id m, c.program.method? id = some m → m.isConstructor = false → settled m) :
    Yields pass.run c fun _ after => after = c := by
  have single : ∀ p owner, (pass.metadata.kind.expand p owner).length ≤ 1 :=
    methods ▸ NodeKind.single_method
  apply yields_run_owners pass c (fun _ now after => now = pass ∧ after = c) (fun _ after => after = c) single
  · exact ⟨rfl, rfl⟩
  · intro _ _ _ _ same _
    exact same
  · intro _ now after owner node same one
    obtain ⟨rfl, rfl⟩ := same
    rw [methods] at one
    obtain ⟨id, m, _, rfl, live, usual⟩ := NodeKind.method_of_one after.program owner node one
    exact visits id m live (all id m live usual)
  · intro now after same
    obtain ⟨rfl, rfl⟩ := same
    exact finishes

end Settling

end Pass

end JvmEdit
