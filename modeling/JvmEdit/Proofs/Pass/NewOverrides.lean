import JvmEdit.Libraries.Standard
import JvmEdit.Proofs.Pass.Overrides
import JvmEdit.Proofs.Pass.Renamers
import Mathlib.Data.Nat.Digits.Defs
set_option autoImplicit false

namespace JvmEdit

namespace Renamer

theorem numbered_injective (word : String) (k l : Nat) (same : word ++ toString k = word ++ toString l) :
    k = l := by
  have lists := congrArg String.toList same
  rw [String.toList_append, String.toList_append] at lists
  have digits : k.repr.toList = l.repr.toList := List.append_cancel_left lists
  rw [Nat.toList_repr, Nat.toList_repr] at digits
  have numbers := congrArg (Nat.ofDigitChars 10 · 0) digits
  simp only [Nat.ofDigitChars_toDigits (show 1 < 10 by decide) (show 10 ≤ 10 by decide)] at numbers
  exact numbers

theorem helpful_numbered (n : Nat) (limited : n ≤ countLimit) : isUnhelpful s!"method{n}" = false := by
  have small : n < 10 ^ 20 := Nat.lt_of_le_of_lt limited (by decide)
  have digits : n.repr.length ≤ 20 := by
    rw [← String.length_toList, Nat.toList_repr]
    exact Nat.toDigits_length 10 n 20 (by decide) small
  have length : s!"method{n}".length = 6 + n.repr.length := String.length_append ..
  have nonempty : 0 < n.repr.length := by
    rw [← String.length_toList, Nat.toList_repr]
    exact Nat.length_toDigits_pos
  simp only [isUnhelpful, Bool.or_eq_false_iff, decide_eq_false_iff_not]
  omega

end Renamer

namespace Program

def signature? (p : Program) (id : MethodId) : Option (String × String) :=
  (p.methodNaming? id).map fun m => (m.name, m.descriptor)

def OnInstance (p : Program) (id : MethodId) : Prop :=
  ∃ m, p.method? id = some m ∧ m.access.isStatic = false

-- Two methods of different classes, one of which is a supertype of the other.
def Kin (p : Program) (i j : MethodId) : Prop :=
  ∃ m n, p.methodNaming? i = some m ∧ p.methodNaming? j = some n ∧ m.owner ≠ n.owner ∧
    (p.Supertype m.owner n.owner ∨ p.Supertype n.owner m.owner)

-- A method on instances that overrides the other one or is overridden by it.
structure Overlaps (p : Program) (i j : MethodId) : Prop where
  kin : p.Kin i j
  onInstance : p.OnInstance i
  same : p.signature? j = p.signature? i

def RenamedIn (p q : Program) (id : MethodId) : Prop :=
  ∃ m n, p.methodNaming? id = some m ∧ q.methodNaming? id = some n ∧ n.name ≠ m.name

-- Some methods have names with numbers from a range, no two of them the same number, and the others their
-- own names. Nothing else about the methods and their classes is different.
structure Numbered (p q : Program) (number : MethodId → Option Nat) (first last : Nat) : Prop where
  links : SameLinks p q
  access : ∀ id, (q.method? id).map (·.access) = (p.method? id).map (·.access)
  range : ∀ id k, number id = some k → first < k ∧ k ≤ last
  apart : ∀ i j k, number i = some k → number j = some k → i = j
  kept : ∀ id, number id = none → q.methodNaming? id = p.methodNaming? id
  given : ∀ id k, number id = some k → Renamer.isUnhelpful s!"method{k}" = false ∧
    ∃ m, p.methodNaming? id = some m ∧ Renamer.isUnhelpful m.name = true ∧
      q.methodNaming? id = some { m with name := s!"method{k}" }

theorem Kin.apart {p : Program} {i j : MethodId} (kin : p.Kin i j) : i ≠ j := by
  intro same
  subst same
  obtain ⟨m, n, isI, isJ, differ, _⟩ := kin
  cases isI.symm.trans isJ
  exact differ rfl

section Kinship

variable {p q : Program} (links : SameLinks p q)

include links

theorem supertype_same_links (c d : ClassId) : q.Supertype c d ↔ p.Supertype c d := by
  have given : ∀ k c, q.givenParents k c = p.givenParents k c := by
    intro k c
    cases k with
    | superclass => exact congrArg (Option.getD · []) (links.reads (·.superName.toList) c)
    | interface => exact congrArg (Option.getD · []) (links.reads (·.interfaces) c)
  have found : q.findClass? = p.findClass? := funext links.find_class
  have same : q.Extends = p.Extends := by
    funext c d
    simp only [Extends, parents, given, found]
  rw [Supertype, same, Supertype]

end Kinship

section Rename

variable (p q : Program)

theorem access_update_method (id i : MethodId) (f : Method → Method)
    (keeps : ∀ m, (f m).access = m.access) :
    ((p.updateMethod id f).method? i).map (·.access) = (p.method? i).map (·.access) := by
  rw [method?_update_method]
  by_cases same : id = i
  · rw [if_pos same]
    cases p.method? i with
    | none => rfl
    | some m => exact congrArg some (keeps m)
  · rw [if_neg same]

theorem rename_method_rows (id : MethodId) (new : String) (m : Method) (live : p.method? id = some m)
    (differ : m.name ≠ new) (done : p.renameMethod id new = .ok q) :
    (∀ i, q.methodNaming? i = if id = i then some { m.naming with name := new } else p.methodNaming? i) ∧
    ∀ i, (q.method? i).map (·.access) = (p.method? i).map (·.access) := by
  obtain ⟨m', found, _, ⟨same, _⟩ | ⟨owner, _, _, _, rfl⟩⟩ := rename_method_ok p q id new done
  · cases live.symm.trans found
    exact absurd same differ
  · cases live.symm.trans found
    constructor
    · intro i
      rw [(same_names_update_all _ m.invocations _).methods, method_naming?_relabel_method]
      by_cases same : id = i
      · rw [if_pos same, if_pos same, ← same, methodNaming?, live]
        rfl
      · rw [if_neg same, if_neg same]
    · intro i
      rw [updateAll]
      refine List.foldlRecOn (motive := fun r : Program =>
        (r.method? i).map (·.access) = (p.method? i).map (·.access)) _ _ ?_ ?_
      · exact access_update_method (p.updateIndex _) id i _ fun _ => rfl
      · refine fun r same ref _ => .trans (access_update_method r ref.method i _ ?_) same
        exact fun _ => rfl

end Rename

section Numbered

variable {p q : Program} {number : MethodId → Option Nat} {first last : Nat}

theorem numbered_start (p : Program) (first : Nat) : Numbered p p (fun _ => none) first first where
  links := .refl p
  access := fun _ => rfl
  range := fun _ _ given => by cases given
  apart := fun _ _ _ given => by cases given
  kept := fun _ _ => rfl
  given := fun _ _ given => by cases given

variable (numbered : Numbered p q number first last)

include numbered

theorem Numbered.same_naming (r : Program) (links : SameLinks q r)
    (naming : ∀ i, r.methodNaming? i = q.methodNaming? i)
    (access : ∀ i, (r.method? i).map (·.access) = (q.method? i).map (·.access)) :
    Numbered p r number first last where
  links := numbered.links.trans links
  access := fun i => (access i).trans (numbered.access i)
  range := numbered.range
  apart := numbered.apart
  kept := fun i none => (naming i).trans (numbered.kept i none)
  given := fun i k isNumber => by
    obtain ⟨helpful, m, before, unhelpful, now⟩ := numbered.given i k isNumber
    exact ⟨helpful, m, before, unhelpful, (naming i).trans now⟩

theorem Numbered.rename (r : Program) (id : MethodId) (m : Method) (n : Nat) (ordered : first ≤ last)
    (later : last < n) (live : q.method? id = some m) (unhelpful : Renamer.isUnhelpful m.name = true)
    (helpful : Renamer.isUnhelpful s!"method{n}" = false)
    (done : q.renameMethod id s!"method{n}" = .ok r) :
    Numbered p r (fun i => if id = i then some n else number i) first n := by
  have differ : m.name ≠ s!"method{n}" := by
    intro same
    rw [same, helpful] at unhelpful
    cases unhelpful
  have naming : q.methodNaming? id = some m.naming := by rw [methodNaming?, live]; rfl
  have unnumbered : number id = none := by
    cases isNumber : number id with
    | none => rfl
    | some k =>
        obtain ⟨helpful', _, _, _, now⟩ := numbered.given id k isNumber
        have isName : m.name = s!"method{k}" :=
          congrArg MethodNaming.name (Option.some.inj (naming.symm.trans now))
        rw [isName, helpful'] at unhelpful
        cases unhelpful
  obtain ⟨rows, access⟩ := rename_method_rows q r id _ m live differ done
  constructor
  · exact numbered.links.trans (same_links_rename_method q r id _ done)
  · exact fun i => (access i).trans (numbered.access i)
  · intro i k isNumber
    by_cases same : id = i
    · rw [if_pos same] at isNumber
      cases isNumber
      omega
    · rw [if_neg same] at isNumber
      have inside := numbered.range i k isNumber
      omega
  · intro i j k isNumber isNumberToo
    by_cases same : id = i
    · by_cases sameToo : id = j
      · exact same.symm.trans sameToo
      · rw [if_pos same] at isNumber
        rw [if_neg sameToo] at isNumberToo
        have inside := numbered.range j k isNumberToo
        cases isNumber
        omega
    · rw [if_neg same] at isNumber
      by_cases sameToo : id = j
      · rw [if_pos sameToo] at isNumberToo
        have inside := numbered.range i k isNumber
        cases isNumberToo
        omega
      · rw [if_neg sameToo] at isNumberToo
        exact numbered.apart i j k isNumber isNumberToo
  · intro i isNone
    by_cases same : id = i
    · rw [if_pos same] at isNone
      cases isNone
    · rw [if_neg same] at isNone
      rw [rows, if_neg same]
      exact numbered.kept i isNone
  · intro i k isNumber
    by_cases same : id = i
    · rw [if_pos same] at isNumber
      cases isNumber
      subst same
      refine ⟨helpful, m.naming, (numbered.kept id unnumbered).symm.trans naming, unhelpful, ?_⟩
      rw [rows, if_pos rfl]
    · rw [if_neg same] at isNumber
      obtain ⟨helpful', before⟩ := numbered.given i k isNumber
      rw [rows, if_neg same]
      exact ⟨helpful', before⟩

end Numbered

section Outcome

variable {p q : Program} {number : MethodId → Option Nat} {first last : Nat}
  (numbered : Numbered p q number first last)

include numbered

theorem Numbered.renamed_iff (id : MethodId) : RenamedIn p q id ↔ ∃ k, number id = some k := by
  constructor
  · intro ⟨m, n, before, now, differ⟩
    cases isNumber : number id with
    | some k => exact ⟨k, rfl⟩
    | none =>
        cases before.symm.trans ((numbered.kept id isNumber).symm.trans now)
        exact absurd rfl differ
  · intro ⟨k, isNumber⟩
    obtain ⟨helpful, m, before, unhelpful, now⟩ := numbered.given id k isNumber
    refine ⟨m, _, before, now, fun same => ?_⟩
    rw [← same, helpful] at unhelpful
    cases unhelpful

theorem Numbered.signature_kept (id : MethodId) (kept : ¬RenamedIn p q id) :
    q.signature? id = p.signature? id := by
  cases isNumber : number id with
  | none => rw [signature?, numbered.kept id isNumber, signature?]
  | some k => exact absurd ((numbered.renamed_iff id).mpr ⟨k, isNumber⟩) kept

theorem Numbered.signature_given (id : MethodId) (k : Nat) (isNumber : number id = some k) :
    ∃ descriptor, q.signature? id = some (s!"method{k}", descriptor) := by
  obtain ⟨_, m, _, _, now⟩ := numbered.given id k isNumber
  exact ⟨m.descriptor, by rw [signature?, now]; rfl⟩

theorem Numbered.signature_iff (i j : MethodId) (apart : i ≠ j) (renamed : RenamedIn p q i) :
    q.signature? j = q.signature? i ↔ p.signature? j = q.signature? i := by
  obtain ⟨k, isNumber⟩ := (numbered.renamed_iff i).mp renamed
  obtain ⟨descriptor, now⟩ := numbered.signature_given i k isNumber
  cases isNumberToo : number j with
  | none => rw [signature?, numbered.kept j isNumberToo, ← signature?]
  | some l =>
      obtain ⟨helpful, m, before, unhelpful, _⟩ := numbered.given j l isNumberToo
      obtain ⟨descriptor', nowToo⟩ := numbered.signature_given j l isNumberToo
      rw [now]
      constructor
      · intro same
        have names : s!"method{l}" = s!"method{k}" :=
          congrArg Prod.fst (Option.some.inj (nowToo.symm.trans same))
        obtain rfl : l = k := Renamer.numbered_injective "method" l k names
        exact absurd (numbered.apart i j l isNumber isNumberToo) apart
      · intro same
        have isName : m.name = s!"method{k}" := by
          rw [signature?, before] at same
          exact congrArg Prod.fst (Option.some.inj same)
        rw [isName, (numbered.given i k isNumber).1] at unhelpful
        cases unhelpful

theorem Numbered.naming_owner (id : MethodId) :
    (q.methodNaming? id).map (·.owner) = (p.methodNaming? id).map (·.owner) := by
  cases isNumber : number id with
  | none => rw [numbered.kept id isNumber]
  | some k =>
      obtain ⟨_, m, before, _, now⟩ := numbered.given id k isNumber
      rw [before, now]
      rfl

theorem Numbered.kin_iff (i j : MethodId) : q.Kin i j ↔ p.Kin i j := by
  have kin : ∀ r : Program, r.Kin i j ↔ ∃ c d, (r.methodNaming? i).map (·.owner) = some c ∧
      (r.methodNaming? j).map (·.owner) = some d ∧ c ≠ d ∧ (r.Supertype c d ∨ r.Supertype d c) := by
    intro r
    constructor
    · intro ⟨m, n, isI, isJ, related⟩
      exact ⟨m.owner, n.owner, by rw [isI]; rfl, by rw [isJ]; rfl, related⟩
    · intro ⟨c, d, isI, isJ, related⟩
      obtain ⟨m, named, rfl⟩ := Option.map_eq_some_iff.mp isI
      obtain ⟨n, namedToo, rfl⟩ := Option.map_eq_some_iff.mp isJ
      exact ⟨m, n, named, namedToo, related⟩
  rw [kin, kin]
  simp only [numbered.naming_owner, supertype_same_links numbered.links]

theorem Numbered.on_instance_iff (id : MethodId) : q.OnInstance id ↔ p.OnInstance id := by
  have flags : ∀ r : Program, r.OnInstance id ↔
      ∃ access, (r.method? id).map (·.access) = some access ∧ access.isStatic = false := by
    intro r
    simp only [OnInstance, Option.map_eq_some_iff, exists_exists_and_eq_and]
  rw [flags, flags, numbered.access]

theorem Numbered.overlaps_renamed_iff (i j : MethodId) (renamed : RenamedIn p q i) :
    q.Overlaps i j ↔ p.Kin i j ∧ p.OnInstance i ∧ p.signature? j = q.signature? i := by
  constructor
  · intro ⟨kin, onInstance, same⟩
    exact ⟨(numbered.kin_iff i j).mp kin, (numbered.on_instance_iff i).mp onInstance,
      (numbered.signature_iff i j kin.apart renamed).mp same⟩
  · intro ⟨kin, onInstance, same⟩
    exact ⟨(numbered.kin_iff i j).mpr kin, (numbered.on_instance_iff i).mpr onInstance,
      (numbered.signature_iff i j kin.apart renamed).mpr same⟩

theorem Numbered.overlaps_kept_iff (i j : MethodId) (keptI : ¬RenamedIn p q i) (keptJ : ¬RenamedIn p q j) :
    q.Overlaps i j ↔ p.Overlaps i j := by
  have same := numbered.signature_kept i keptI
  have sameToo := numbered.signature_kept j keptJ
  constructor
  · intro ⟨kin, onInstance, equal⟩
    rw [same, sameToo] at equal
    exact ⟨(numbered.kin_iff i j).mp kin, (numbered.on_instance_iff i).mp onInstance, equal⟩
  · intro ⟨kin, onInstance, equal⟩
    rw [← same, ← sameToo] at equal
    exact ⟨(numbered.kin_iff i j).mpr kin, (numbered.on_instance_iff i).mpr onInstance, equal⟩

end Outcome

end Program

namespace Pass

open Program

-- A renamer of methods on its way through a program, with the numbers that it has given.
def Numbers (p : Program) (first : Nat) (pass : Pass) (c : PassContext) : Prop :=
  ∃ count number, pass = .methodRenamer count ∧ first ≤ count ∧ c.program.Bound ∧
    Numbered p c.program number first count

section Run

variable (p : Program) (first : Nat)

theorem numbers_visit [Libraries] (pass : Pass) (c : PassContext) (owner : Owner) (node : Node)
    (so : Numbers p first pass c) (one : NodeKind.method.expand c.program owner = [node]) :
    Yields (pass.visit node) c (Numbers p first) := by
  obtain ⟨count, number, rfl, ordered, bound, numbered⟩ := so
  obtain ⟨id, m, _, rfl, live, usual⟩ := NodeKind.method_of_one c.program owner node one
  have usuals : ∀ m, c.program.method? id = some m → m.isConstructor = false := by
    intro m' live'
    cases live.symm.trans live'
    exact usual
  apply yields_bind _ _ c fun count' c' => Numbers p first (.methodRenamer count') c'
  · apply Renamer.yields_visit_method_edit c count id _ usuals bound
    · exact ⟨count, number, rfl, ordered, bound, numbered⟩
    · intro m n q c' live unhelpful later limited done marked
      have plain := Renamer.undotted_numbered "method" (by decide) n
      have boundNow : q.Bound := by
        have performed := bound_perform c.program (.renameMethod id s!"method{n}") bound plain
        rwa [perform, edit, done] at performed
      have renamed := numbered.rename q id m n ordered later live unhelpful
        (Renamer.helpful_numbered n limited) done
      have reached : c'.program.Bound ∧
          Numbered p c'.program (fun i => if id = i then some n else number i) first n := by
        rcases marked with same | ⟨a, same⟩
        · rw [same]
          exact ⟨boundNow, renamed⟩
        · rw [same]
          refine ⟨(members_renamed_annotate_method q (fun _ _ => True) boundNow id a).bound, ?_⟩
          apply renamed.same_naming
          · exact same_links_update_method q id _
          · refine (same_names_update_method q id _ ?_).methods
            exact fun _ => rfl
          · refine fun i => access_update_method q id i _ ?_
            exact fun _ => rfl
      exact ⟨n, _, rfl, Nat.le_trans ordered (Nat.le_of_lt later), reached⟩
  · exact fun count' c' numbers => yields_pure _ c' _ numbers

theorem numbers_run [Libraries] (c : PassContext) (bound : c.program.Bound) :
    Yields (methodRenamer first).run c fun ran after => Numbers c.program first ran.1 after := by
  apply yields_run_owners _ c (fun _ => Numbers c.program first) (Numbers c.program first)
  · exact NodeKind.single_method
  · exact ⟨first, _, rfl, Nat.le_refl first, bound, numbered_start c.program first⟩
  · exact fun _ pass now owner so _ => so
  · exact fun _ pass now owner node so one => numbers_visit c.program first pass now owner node so one
  · intro pass now so
    have keeps : pass.finish = pure pass := by
      obtain ⟨count, _, rfl, _⟩ := so
      rfl
    rw [keeps]
    exact yields_pure pass now _ so

-- A renamer of methods runs to its end, and gives every method that it renames a name with a number of
-- its own, beyond the count it started from. Such a method then overrides, or is overridden by, a method
-- of a supertype or subtype exactly if that one had this name and this descriptor before the run; what the
-- other methods override among themselves stays as it was. So nothing is overridden anew unless some
-- method had a sequential name to begin with.
theorem overlaps_run [Libraries] (count : Nat) (c : PassContext) (bound : c.program.Bound) :
    Yields (methodRenamer count).run c fun _ after =>
      let p := c.program
      let q := after.program
      (∀ i, p.RenamedIn q i → ∃ m k, p.methodNaming? i = some m ∧ count < k ∧
        q.methodNaming? i = some { m with name := s!"method{k}" }) ∧
      (∀ i j, p.RenamedIn q i → (q.Overlaps i j ↔
        p.Kin i j ∧ p.OnInstance i ∧ p.signature? j = q.signature? i)) ∧
      (∀ i j, ¬p.RenamedIn q i → ¬p.RenamedIn q j → (q.Overlaps i j ↔ p.Overlaps i j)) ∧
      ((∀ j n (k : Nat), p.methodNaming? j = some n → n.name ≠ s!"method{k}") →
        ∀ i j, p.RenamedIn q i → ¬q.Overlaps i j) := by
  apply yields_mono _ c _ _ (numbers_run count c bound)
  intro ran after ⟨last, number, _, _, _, numbered⟩
  refine ⟨?_, ?_, ?_, ?_⟩
  · intro i renamed
    obtain ⟨k, isNumber⟩ := (numbered.renamed_iff i).mp renamed
    obtain ⟨_, m, before, _, now⟩ := numbered.given i k isNumber
    exact ⟨m, k, before, (numbered.range i k isNumber).1, now⟩
  · exact numbered.overlaps_renamed_iff
  · exact numbered.overlaps_kept_iff
  · intro unnumbered i j renamed overlaps
    obtain ⟨k, isNumber⟩ := (numbered.renamed_iff i).mp renamed
    obtain ⟨descriptor, now⟩ := numbered.signature_given i k isNumber
    obtain ⟨_, _, same⟩ := (numbered.overlaps_renamed_iff i j renamed).mp overlaps
    obtain ⟨n, before, isSignature⟩ := Option.map_eq_some_iff.mp (same.trans now)
    exact unnumbered j n k before (congrArg Prod.fst isSignature)

end Run

end Pass

namespace Session

open Program

-- A class, and a subclass with another method.
def besides (name : String) : List SessionAction :=
  [.openBuilder] ++ loadClass "Base" "java/lang/Object" [] ["f"] default ++
    loadClass "Child" "Base" [] [name] default

def renamedBesides [Libraries] (name : String) : Except (PassFailure × Pass) (Pass × Nat) × PassContext :=
  (Pass.methodRenamer 0).run.run.run { pass := "renamer", program := ready {} (besides name) }

-- Where both methods get new names, neither overrides the other.
theorem overlaps_run_besides :
    let c : PassContext := { pass := "renamer", program := ready {} (besides "g") }
    c.program.Bound ∧ ∃ after, (renamedBesides "g").2 = after ∧ c.program.RenamedIn after.program ⟨2⟩ ∧
      c.program.RenamedIn after.program ⟨4⟩ ∧ ¬after.program.Overlaps ⟨2⟩ ⟨4⟩ := by
  intro c
  obtain ⟨bound, _⟩ := bound_complete_ready {} (besides "g") (by decide)
  obtain ⟨ran, after, done, _, overlaps, _⟩ := Pass.overlaps_run 0 c bound
  have isAfter : (renamedBesides "g").2 = after := congrArg Prod.snd done
  subst isAfter
  have renamed : c.program.RenamedIn (renamedBesides "g").2.program ⟨2⟩ :=
    ⟨⟨⟨1⟩, "f", "()V"⟩, ⟨⟨1⟩, "method1", "()V"⟩, by decide +kernel, by decide +kernel, by decide⟩
  have renamedToo : c.program.RenamedIn (renamedBesides "g").2.program ⟨4⟩ :=
    ⟨⟨⟨3⟩, "g", "()V"⟩, ⟨⟨3⟩, "method2", "()V"⟩, by decide +kernel, by decide +kernel, by decide⟩
  refine ⟨bound, _, rfl, renamed, renamedToo, fun overlap => ?_⟩
  have same := ((overlaps ⟨2⟩ ⟨4⟩ renamed).mp overlap).2.2
  exact absurd same (by decide +kernel)

-- The method of the class is given the name that the method of the subclass has.
theorem method_renamer_overrides :
    let p := ready {} (besides "method1")
    let q := (renamedBesides "method1").2.program
    (p.ExactHierarchy ∧ p.Bound ∧ p.Complete ∧ (renamedBesides "method1").1.isOk = true) ∧
      p.RenamedIn q ⟨2⟩ ∧ ¬p.Overlaps ⟨2⟩ ⟨4⟩ ∧ q.Overlaps ⟨2⟩ ⟨4⟩ := by
  intro p q
  have plain : ∀ action ∈ besides "method1", action.PlainLoad := by decide
  have legal := class_names_legal_of_rows ((start {}).run (besides "method1")).program (by decide)
  obtain ⟨bound, complete⟩ := bound_complete_ready {} (besides "method1") plain
  have linked : p.ExactHierarchy := exact_hierarchy_ready {} (besides "method1") plain legal
  have renamed : p.RenamedIn q ⟨2⟩ :=
    ⟨⟨⟨1⟩, "f", "()V"⟩, ⟨⟨1⟩, "method1", "()V"⟩, by decide +kernel, by decide +kernel, by decide⟩
  have kin : q.Kin ⟨2⟩ ⟨4⟩ :=
    ⟨⟨⟨1⟩, "method1", "()V"⟩, ⟨⟨3⟩, "method1", "()V"⟩, by decide +kernel, by decide +kernel, by decide,
      .inr (.single ⟨.superclass, by decide +kernel⟩)⟩
  let m := (q.method? ⟨2⟩).get (by decide +kernel)
  have onInstance : q.OnInstance ⟨2⟩ := ⟨m, (Option.some_get _).symm, by decide +kernel⟩
  refine ⟨⟨linked, bound, complete, by decide +kernel⟩, renamed, fun overlap => ?_, kin, onInstance,
    by decide +kernel⟩
  exact absurd overlap.same (by decide +kernel)

end Session

end JvmEdit
