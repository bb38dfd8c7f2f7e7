import JvmEdit.Libraries.Standard
import JvmEdit.Pass.Remover
import JvmEdit.Proofs.References.Recorded
set_option autoImplicit false

namespace JvmEdit

namespace Renaming

variable (r : Renaming)

theorem mem_render_rename (tokens : List Signature.Token) (old new : List Char) (c : Char)
    (member : c ∈ Signature.render (tokens.map (Signature.Token.rename old new))) :
    c ∈ Signature.render tokens ∨ c ∈ new := by
  obtain ⟨token, inTokens, inText⟩ := List.mem_flatMap.mp member
  obtain ⟨before, inBefore, rfl⟩ := List.mem_map.mp inTokens
  cases before with
  | mark d => exact Or.inl (List.mem_flatMap.mpr ⟨_, inBefore, inText⟩)
  | className name =>
      by_cases same : name = old
      · refine Or.inr ?_
        simpa [Signature.Token.rename, Signature.Token.render, same] using inText
      · refine Or.inl (List.mem_flatMap.mpr ⟨_, inBefore, ?_⟩)
        simpa [Signature.Token.rename, Signature.Token.render, same] using inText

theorem undotted_internal (text : String) (plain : Undotted text) (plainNew : Undotted r.new) :
    Undotted (r.internal text) := by
  simp only [internal, ClassName.rename?]
  split
  · exact plainNew
  · split
    · cases renamed : Signature.rename? text r.old r.new with
      | none => exact plain
      | some text' =>
          obtain ⟨tokens, read, rest⟩ := Option.bind_eq_some_iff.mp renamed
          split at rest
          · cases rest
            intro dot
            rw [Option.getD_some, String.toList_ofList] at dot
            rcases mem_render_rename tokens _ _ _ dot with before | inNew
            · rw [Signature.render_tokens? _ _ read] at before
              exact plain before
            · exact plainNew inNew
          · cases rest
    · exact plain

theorem plain_operand (o : Operand) (plain : o.Plain) (plainNew : Undotted r.new) :
    (r.operand o).Plain := by
  cases o with
  | field u => exact ⟨r.undotted_internal u.owner plain.1 plainNew, plain.2⟩
  | call c => exact ⟨r.undotted_internal c.owner plain.1 plainNew, plain.2⟩
  | _ => trivial

end Renaming

namespace Program

theorem coded_renamed (p : Program) (id : ClassId) (r : Renaming) (coded : p.Coded)
    (plainNew : Undotted r.new) : (p.renamed id r).Coded := by
  intro i m found
  have stored : (p.renamed id r).method? i = (p.method? i).map r.methodText :=
    Table.get?_map_values _ _ _
  rw [stored] at found
  obtain ⟨before, live, rfl⟩ := Option.map_eq_some_iff.mp found
  have fits := coded i before live
  refine ⟨?_, ?_⟩
  · have ids : (before.code.toList.map r.instruction).map (·.id) = before.code.toList.map (·.id) := by
      rw [List.map_map]
      rfl
    exact ids ▸ fits.unique
  · intro insn member
    obtain ⟨old, inCode, rfl⟩ := List.mem_map.mp member
    exact r.plain_operand old.operand (fits.plain old inCode) plainNew

theorem bound_rename_class (p q : Program) (id : ClassId) (new : String) (bound : p.Bound)
    (plain : Undotted new) (done : p.renameClass id new = .ok q) (consistent : q.violations = []) :
    q.Bound := by
  have indexed := indexed_rename_class p q id new bound.indexed plain done
  refine ⟨indexed, sound_of_violations_nil q consistent, ?_⟩
  obtain ⟨old, _, outcome⟩ := rename_class_ok p q id new bound.indexed.is_owned
    (Table.keys_nodup _ bound.indexed.classOrder) (Table.keys_nodup _ bound.indexed.fieldOrder)
    (Table.keys_nodup _ bound.indexed.methodOrder) done
  rcases outcome with ⟨_, rfl⟩ | ⟨_, _, _, rfl⟩
  · exact bound.coded
  · exact (same_sites_relink_class _ id).coded (coded_renamed p id ⟨old, new⟩ bound.coded plain)

-- Every instruction that names something loaded is recorded with it.
def Complete (p : Program) : Prop := ∀ target ref, p.target? ref = some target → p.Holds target ref

end Program

namespace MemberEdit

-- An edit that takes nothing out of the program.
def Relocates : MemberEdit → Prop
  | .renameField .. | .renameMethod .. | .moveField .. | .moveMethod .. => True
  | .deleteField _ | .deleteMethod _ | .deleteInstructions .. => False

-- The methods whose code an edit goes through, with the program it leaves.
def rescan (e : MemberEdit) (scanned : MethodId → Program) (now : Program) : MethodId → Program :=
  match e with
  | .moveMethod id _ => fun method => if method = id then now else scanned method
  | _ => scanned

end MemberEdit

-- The states that renamings and moves lead to, and for each method the state in which its code was
-- last gone through. A class rename counts only if it leaves the program consistent.
inductive Trail [Libraries] (start : Program) : Program → (MethodId → Program) → Prop
  | start : Trail start start fun _ => start
  | member (p q : Program) (scanned : MethodId → Program) (e : MemberEdit)
      (before : Trail start p scanned) (relocates : e.Relocates) (plain : e.Plain)
      (done : p.edit e = .ok q) : Trail start q (e.rescan scanned q)
  | renameClass (p q : Program) (scanned : MethodId → Program) (id : ClassId) (new : String)
      (before : Trail start p scanned) (plain : Undotted new) (done : p.renameClass id new = .ok q)
      (consistent : q.violations = []) : Trail start q scanned

namespace Trail

open Program

-- Instructions are recorded with what they named when last gone through, and name it still.
structure Faithful (p : Program) (scanned : MethodId → Program) : Prop where
  bound : p.Bound
  held : ∀ target ref, p.Holds target ref ↔ (scanned ref.method).target? ref = some target

theorem faithful_member [Libraries] (p q : Program) (scanned : MethodId → Program) (e : MemberEdit)
    (faithful : Faithful p scanned) (relocates : e.Relocates) (plain : e.Plain)
    (done : p.edit e = .ok q) : Faithful q (e.rescan scanned q) := by
  have bound : q.Bound := by
    have performed := bound_perform p e faithful.bound plain
    rwa [perform, done] at performed
  refine ⟨bound, ?_⟩
  intro target ref
  cases e with
  | renameField id new => exact (holds_rename_field_iff p q id new done target ref).trans (faithful.held target ref)
  | renameMethod id new => exact (holds_rename_method_iff p q id new done target ref).trans (faithful.held target ref)
  | moveField id destination =>
      exact (holds_move_field_iff p q id destination faithful.bound done target ref).trans
        (faithful.held target ref)
  | moveMethod id destination =>
      rw [holds_move_method_iff p q id destination faithful.bound done, MemberEdit.rescan]
      dsimp only
      by_cases own : ref.method = id
      · rw [if_pos own, if_pos own]
      · rw [if_neg own, if_neg own]
        exact faithful.held target ref
  | deleteField id => exact False.elim relocates
  | deleteMethod id => exact False.elim relocates
  | deleteInstructions id insns => exact False.elim relocates

theorem faithful [Libraries] (start p : Program) (scanned : MethodId → Program)
    (outset : Faithful start fun _ => start) (trail : Trail start p scanned) :
    Faithful p scanned := by
  induction trail with
  | start => exact outset
  | member p q scanned e _ relocates plain done ih =>
      exact faithful_member p q scanned e ih relocates plain done
  | renameClass p q scanned id new _ plain done consistent ih =>
      refine ⟨bound_rename_class p q id new ih.bound plain done consistent, ?_⟩
      intro target ref
      exact (holds_rename_class_iff p q id new ih.bound.indexed done target ref).trans (ih.held target ref)

end Trail

namespace Session

open Program

theorem faithful_resolved [Libraries] (settings : Settings) (loads : List SessionAction)
    (plain : ∀ action ∈ loads, action.PlainLoad) :
    Trail.Faithful (resolved settings loads) fun _ => resolved settings loads := by
  refine ⟨bound_resolved settings loads plain, ?_⟩
  have loading := loading_run _ loads (loading_start settings) plain
  have indexed := indexed_run _ loads (indexed_start settings) fun action member =>
    plain_of_plain_load action (plain action member)
  intro target ref
  have named : (resolved settings loads).target? ref =
      ((start settings).run loads).program.target? ref := by
    rw [resolved, resolve_all_program]
    exact (SameSites.foldl _ same_sites_resolve_method _ _).target? ref
  rw [named, resolved, holds_resolve_all_iff _ indexed loading.coded]
  exact or_iff_right (loading.unbound target ref)

-- After any run of renamings and moves, an instruction is recorded with an entity exactly if it
-- named that entity when the code of its method was last gone through, and then it still does.
-- Binding everything anew adds nothing exactly if no instruction has come to name something since.
theorem recorded_iff_scanned [Libraries] (settings : Settings) (loads : List SessionAction)
    (plain : ∀ action ∈ loads, action.PlainLoad) (p : Program) (scanned : MethodId → Program)
    (trail : Trail (resolved settings loads) p scanned) :
    (∀ target ref, p.Holds target ref ↔ (scanned ref.method).target? ref = some target) ∧
    (∀ target ref, p.Holds target ref → p.target? ref = some target) ∧
    (p.Complete ↔ ∀ ref, (p.target? ref).isSome → ((scanned ref.method).target? ref).isSome) ∧
    (p.Complete ↔ ∀ target ref, p.resolveAll.1.Holds target ref → p.Holds target ref) := by
  have faithful := Trail.faithful _ p scanned (faithful_resolved settings loads plain) trail
  refine ⟨faithful.held, faithful.bound.sound, ⟨?_, ?_⟩, ⟨?_, ?_⟩⟩
  · intro complete ref named
    obtain ⟨target, found⟩ := Option.isSome_iff_exists.mp named
    rw [(faithful.held target ref).mp (complete target ref found)]
    rfl
  · intro seen target ref named
    obtain ⟨old, found⟩ := Option.isSome_iff_exists.mp (seen ref (by rw [named]; rfl))
    have held := (faithful.held old ref).mpr found
    cases named.symm.trans (faithful.bound.sound old ref held)
    exact held
  · intro complete target ref held
    rcases (holds_resolve_all_iff p faithful.bound.indexed faithful.bound.coded target ref).mp held
      with before | named
    · exact before
    · exact complete target ref named
  · intro settled target ref named
    exact settled target ref
      ((holds_resolve_all_iff p faithful.bound.indexed faithful.bound.coded target ref).mpr
        (Or.inr named))

-- Two classes; the code of the second calls a method `help` that the first does not have yet.
def helpWanted : List SessionAction :=
  let header (name : String) : ClassEvent :=
    .header ⟨name, some "java/lang/Object", [], none, default, 52, [], []⟩
  [.openBuilder, .visit 0 (header "Lib"), .visit 0 (.method ⟨"aid", "()V", none, default, [], []⟩),
    .visit 0 .classEnd, .visit 0 (header "Caller"),
    .visit 0 (.method ⟨"run", "()V", none, default, [], []⟩),
    .visit 0 (.instruction 184 (.call ⟨"Lib", "help", "()V", false, .static⟩)), .visit 0 .classEnd]

-- The method now has the name that the code calls.
def helped : Program := (resolved {} helpWanted).perform (.renameMethod ⟨2⟩ "help")

-- Once the caller itself is moved, its code is gone through and the call is recorded.
theorem recorded_iff_scanned_helped : (∀ action ∈ helpWanted, action.PlainLoad) ∧
    ∃ p scanned, helped.moveMethod ⟨4⟩ ⟨1⟩ = .ok p ∧ Trail (resolved {} helpWanted) p scanned ∧
      (p.Holds (.method ⟨2⟩) ⟨⟨4⟩, ⟨5⟩⟩ ↔
        (scanned ⟨4⟩).target? ⟨⟨4⟩, ⟨5⟩⟩ = some (.method ⟨2⟩)) ∧
      p.Holds (.method ⟨2⟩) ⟨⟨4⟩, ⟨5⟩⟩ := by
  have plain : ∀ action ∈ helpWanted, action.PlainLoad := by decide
  have renamed : Trail (resolved {} helpWanted) helped _ :=
    .member _ helped _ (.renameMethod ⟨2⟩ "help") .start trivial (by decide) rfl
  have trail := Trail.member helped (helped.perform (.moveMethod ⟨4⟩ ⟨1⟩)) _ (.moveMethod ⟨4⟩ ⟨1⟩)
    renamed trivial trivial rfl
  have outcome := recorded_iff_scanned {} helpWanted plain _ _ trail
  exact ⟨plain, _, _, rfl, trail, outcome.1 (.method ⟨2⟩) ⟨⟨4⟩, ⟨5⟩⟩, by decide⟩

-- The renamed method is called, but the call is not recorded: the method counts as unused.
theorem rename_method_uncounted : (∀ action ∈ helpWanted, action.PlainLoad) ∧
    (resolved {} helpWanted).renameMethod ⟨2⟩ "help" = .ok helped ∧
    helped.target? ⟨⟨4⟩, ⟨5⟩⟩ = some (.method ⟨2⟩) ∧ ¬helped.Holds (.method ⟨2⟩) ⟨⟨4⟩, ⟨5⟩⟩ ∧
    ¬helped.Complete ∧ helped.violations = [] ∧
    (helped.method? ⟨2⟩).any (Remover.isUnusedMethod (HiddenUses.ofProgram helped)) = true := by
  have unheld : ¬helped.Holds (.method ⟨2⟩) ⟨⟨4⟩, ⟨5⟩⟩ := by decide
  have named : helped.target? ⟨⟨4⟩, ⟨5⟩⟩ = some (.method ⟨2⟩) := by rfl
  exact ⟨by decide, rfl, named, unheld, fun complete => unheld (complete _ _ named), rfl, rfl⟩

end Session

end JvmEdit
