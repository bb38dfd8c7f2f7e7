import JvmEdit.Proofs.Descriptor.Exact
set_option autoImplicit false

namespace JvmEdit

namespace Signature

section Prefixes

theorem append_inj_of_stop (stops : Char → Bool) (name name' rest rest' : List Char)
    (plain : ∀ c ∈ name, stops c = false) (plain' : ∀ c ∈ name', stops c = false)
    (ends : ∃ c more, rest = c :: more ∧ stops c = true)
    (ends' : ∃ c more, rest' = c :: more ∧ stops c = true)
    (same : name ++ rest = name' ++ rest') : name = name' ∧ rest = rest' := by
  obtain ⟨stop, more, rfl, isStop⟩ := ends
  obtain ⟨stop', more', rfl, isStop'⟩ := ends'
  induction name generalizing name' with
  | nil =>
      cases name' with
      | nil => exact ⟨rfl, same⟩
      | cons c name' =>
          obtain ⟨rfl, -⟩ := List.cons.inj same
          exact absurd (plain' stop List.mem_cons_self) (by simp [isStop])
  | cons c name ih =>
      cases name' with
      | nil =>
          obtain ⟨rfl, -⟩ := List.cons.inj same
          exact absurd (plain c List.mem_cons_self) (by simp [isStop'])
      | cons c' name' =>
          obtain ⟨rfl, sameRest⟩ := List.cons.inj same
          obtain ⟨rfl, sameMore⟩ := ih name' (fun d member => plain d (List.mem_cons_of_mem _ member))
            (fun d member => plain' d (List.mem_cons_of_mem _ member)) sameRest
          exact ⟨rfl, sameMore⟩

theorem Arguments.text_exact_ne (type : TypeTree) (more : Arguments) (rest rest' : List Char) (c : Char)
    (spelled : (Arguments.exact type more).spelled endsVariable = true)
    (other : c = '>' ∨ c = '*' ∨ ∃ sign : Sign, c = sign.char) :
    (Arguments.exact type more).text ++ rest ≠ c :: rest' := by
  intro same
  simp only [Arguments.spelled, Bool.and_eq_true] at spelled
  obtain ⟨d, begun, begins, isType⟩ := type.text_cons endsVariable .top spelled.1
  rw [Arguments.text, begins] at same
  obtain ⟨rfl, -⟩ := List.cons.inj same
  rcases other with rfl | rfl | ⟨sign, rfl⟩
  · simp [typeStep, isBase] at isType
  · simp [typeStep, isBase] at isType
  · cases sign <;> simp [typeStep, isBase, Sign.char] at isType

theorem Tail.ends (t : Tail) (rest : List Char) :
    ∃ c more, t.text ++ rest = c :: more ∧ endsName c = true := by
  obtain ⟨stop, more, begins, isStop⟩ := t.text_cons
  exact ⟨stop, more ++ rest, by rw [begins]; rfl, isStop⟩

theorem Sign.char_cases (sign : Sign) : sign.char = '+' ∨ sign.char = '-' := by
  cases sign
  · exact .inl rfl
  · exact .inr rfl

theorem Sign.char_inj (sign sign' : Sign) (same : sign.char = sign'.char) : sign = sign' := by
  cases sign <;> cases sign' <;> first | rfl | cases same

mutual

theorem TypeTree.text_append_inj (t t' : TypeTree) (rest rest' : List Char)
    (spelled : t.spelled endsVariable = true) (spelled' : t'.spelled endsVariable = true)
    (same : t.text ++ rest = t'.text ++ rest') : t = t' ∧ rest = rest' := by
  cases t <;> cases t'
  case base.base letter letter' =>
    obtain ⟨rfl, rfl⟩ := List.cons.inj same
    exact ⟨rfl, rfl⟩
  case array.array element element' =>
    obtain ⟨rfl, rfl⟩ := TypeTree.text_append_inj element element' rest rest' spelled spelled'
      (List.cons.inj same).2
    exact ⟨rfl, rfl⟩
  case typeVariable.typeVariable name name' =>
    have plain : ∀ c ∈ name, endsVariable c = false := by simpa [TypeTree.spelled] using spelled
    have plain' : ∀ c ∈ name', endsVariable c = false := by simpa [TypeTree.spelled] using spelled'
    obtain ⟨rfl, sameRest⟩ := append_inj_of_stop endsVariable name name' (';' :: rest) (';' :: rest')
      plain plain' ⟨_, _, rfl, rfl⟩ ⟨_, _, rfl, rfl⟩ (by simpa [TypeTree.text] using same)
    exact ⟨rfl, (List.cons.inj sameRest).2⟩
  case named.named name tail name' tail' =>
    obtain ⟨plain, spelledTail⟩ : (∀ c ∈ name, endsName c = false) ∧ tail.spelled endsVariable = true := by
      simpa [TypeTree.spelled] using spelled
    obtain ⟨plain', spelledTail'⟩ :
        (∀ c ∈ name', endsName c = false) ∧ tail'.spelled endsVariable = true := by
      simpa [TypeTree.spelled] using spelled'
    obtain ⟨rfl, sameTail⟩ := append_inj_of_stop endsName name name' _ _ plain plain'
      (tail.ends rest) (tail'.ends rest') (by simpa [TypeTree.text] using same)
    obtain ⟨rfl, rfl⟩ := Tail.text_append_inj tail tail' rest rest' spelledTail spelledTail' sameTail
    exact ⟨rfl, rfl⟩
  -- The letters of primitive types are none of those that begin the other types.
  all_goals
    obtain ⟨sameLetter, -⟩ := List.cons.inj same
    cases sameLetter <;> first | cases spelled | cases spelled'

theorem Tail.text_append_inj (t t' : Tail) (rest rest' : List Char)
    (spelled : t.spelled endsVariable = true) (spelled' : t'.spelled endsVariable = true)
    (same : t.text ++ rest = t'.text ++ rest') : t = t' ∧ rest = rest' := by
  cases t <;> cases t'
  case stop.stop => exact ⟨rfl, (List.cons.inj same).2⟩
  case member.member name tail name' tail' =>
    obtain ⟨plain, spelledTail⟩ : (∀ c ∈ name, endsName c = false) ∧ tail.spelled endsVariable = true := by
      simpa [Tail.spelled] using spelled
    obtain ⟨plain', spelledTail'⟩ :
        (∀ c ∈ name', endsName c = false) ∧ tail'.spelled endsVariable = true := by
      simpa [Tail.spelled] using spelled'
    obtain ⟨rfl, sameTail⟩ := append_inj_of_stop endsName name name' _ _ plain plain'
      (tail.ends rest) (tail'.ends rest') (by simpa [Tail.text] using same)
    obtain ⟨rfl, rfl⟩ := Tail.text_append_inj tail tail' rest rest' spelledTail spelledTail' sameTail
    exact ⟨rfl, rfl⟩
  case arguments.arguments arguments tail arguments' tail' =>
    simp only [Tail.spelled, Bool.and_eq_true] at spelled spelled'
    obtain ⟨rfl, sameTail⟩ := Arguments.text_append_inj arguments arguments' (tail.text ++ rest)
      (tail'.text ++ rest') spelled.1 spelled'.1 (by simpa [Tail.text] using same)
    obtain ⟨rfl, rfl⟩ := Tail.text_append_inj tail tail' rest rest' spelled.2 spelled'.2 sameTail
    exact ⟨rfl, rfl⟩
  all_goals
    obtain ⟨differ, -⟩ := List.cons.inj same
    cases differ

theorem Arguments.text_append_inj (a a' : Arguments) (rest rest' : List Char)
    (spelled : a.spelled endsVariable = true) (spelled' : a'.spelled endsVariable = true)
    (same : a.text ++ rest = a'.text ++ rest') : a = a' ∧ rest = rest' := by
  cases a <;> cases a'
  case stop.stop => exact ⟨rfl, (List.cons.inj same).2⟩
  case any.any more more' =>
    obtain ⟨rfl, rfl⟩ := Arguments.text_append_inj more more' rest rest' spelled spelled'
      (List.cons.inj same).2
    exact ⟨rfl, rfl⟩
  case bounded.bounded sign type more sign' type' more' =>
    simp only [Arguments.spelled, Bool.and_eq_true] at spelled spelled'
    obtain ⟨sameSign, sameRest⟩ := List.cons.inj same
    obtain rfl := Sign.char_inj sign sign' sameSign
    obtain ⟨rfl, sameMore⟩ := TypeTree.text_append_inj type type' (more.text ++ rest)
      (more'.text ++ rest') spelled.1 spelled'.1 (by simpa using sameRest)
    obtain ⟨rfl, rfl⟩ := Arguments.text_append_inj more more' rest rest' spelled.2 spelled'.2 sameMore
    exact ⟨rfl, rfl⟩
  case exact.exact type more type' more' =>
    simp only [Arguments.spelled, Bool.and_eq_true] at spelled spelled'
    obtain ⟨rfl, sameMore⟩ := TypeTree.text_append_inj type type' (more.text ++ rest)
      (more'.text ++ rest') spelled.1 spelled'.1 (by simpa [Arguments.text] using same)
    obtain ⟨rfl, rfl⟩ := Arguments.text_append_inj more more' rest rest' spelled.2 spelled'.2 sameMore
    exact ⟨rfl, rfl⟩
  case stop.exact => exact absurd same.symm (Arguments.text_exact_ne _ _ _ _ '>' spelled' (.inl rfl))
  case exact.stop => exact absurd same (Arguments.text_exact_ne _ _ _ _ '>' spelled (.inl rfl))
  case any.exact => exact absurd same.symm (Arguments.text_exact_ne _ _ _ _ '*' spelled' (.inr (.inl rfl)))
  case exact.any => exact absurd same (Arguments.text_exact_ne _ _ _ _ '*' spelled (.inr (.inl rfl)))
  case bounded.exact sign _ _ _ _ =>
    exact absurd same.symm (Arguments.text_exact_ne _ _ _ _ sign.char spelled' (.inr (.inr ⟨sign, rfl⟩)))
  case exact.bounded _ _ sign _ _ =>
    exact absurd same (Arguments.text_exact_ne _ _ _ _ sign.char spelled (.inr (.inr ⟨sign, rfl⟩)))
  -- The marks that are left differ.
  all_goals
    obtain ⟨sameMark, -⟩ := List.cons.inj same
    grind [Sign.char_cases]

end

end Prefixes

-- One bound of a type parameter. The first one comes with the name of the parameter.
structure Bound where
  name : List Char
  type : Option TypeTree

namespace Bound

def text (b : Bound) : List Char := b.name ++ Parameter.boundText b.type

def Spelled (b : Bound) : Prop :=
  (∀ c ∈ b.name, c ≠ ':') ∧ b.name.head? ≠ some '>' ∧
    ∀ t ∈ b.type, t.isReference = true ∧ t.spelled endsVariable = true

-- What comes after a bound that is left out is not taken for its type.
def Apart (b next : Bound) : Prop := b.type.isNone = true → next.name.head?.any opensBound = false

end Bound

def Parameter.separate (p : Parameter) : List Bound :=
  match p.bounds with
  | [] => []
  | first :: others => ⟨p.name, first⟩ :: others.map (⟨[], ·⟩)

section Bounds

theorem Parameter.separate_text (p : Parameter) (spelled : p.spelled endsVariable = true) :
    p.separate.flatMap Bound.text = p.text := by
  obtain ⟨_, _, bounded, _⟩ := (p.spelled_iff endsVariable).mp spelled
  rw [separate, text]
  cases bounds : p.bounds with
  | nil => exact absurd bounds bounded
  | cons first others => simp [Bound.text, List.flatMap_map]

theorem Parameter.separate_ne_nil (p : Parameter) (spelled : p.spelled endsVariable = true) :
    p.separate ≠ [] := by
  obtain ⟨_, _, bounded, _⟩ := (p.spelled_iff endsVariable).mp spelled
  rw [separate]
  cases bounds : p.bounds with
  | nil => exact absurd bounds bounded
  | cons first others => simp

theorem Parameter.separate_spelled (p : Parameter) (spelled : p.spelled endsVariable = true) :
    ∀ b ∈ p.separate, b.Spelled := by
  obtain ⟨plain, opens, _, types⟩ := (p.spelled_iff endsVariable).mp spelled
  rw [separate]
  cases bounds : p.bounds with
  | nil => simp
  | cons first others =>
      rw [bounds] at types
      intro b member
      rcases List.mem_cons.mp member with rfl | later
      · exact ⟨plain, opens, types first List.mem_cons_self⟩
      · obtain ⟨type, isOther, rfl⟩ := List.mem_map.mp later
        exact ⟨by simp, by simp, types type (List.mem_cons_of_mem _ isOther)⟩

theorem Parameter.separate_apart (p : Parameter) : p.separate.IsChain Bound.Apart := by
  rw [separate]
  cases p.bounds with
  | nil => exact .nil
  | cons first others =>
      refine List.isChain_cons.mpr ⟨fun next isNext _ => ?_, ?_⟩
      · obtain ⟨type, _, rfl⟩ := List.mem_map.mp (List.mem_of_mem_head? isNext)
        rfl
      · exact (List.isChain_map _).mpr (List.Pairwise.isChain (List.pairwise_of_forall fun _ _ _ => rfl))

theorem Parameter.separate_types (p : Parameter) : p.separate.map Bound.type = p.bounds := by
  rw [separate]
  cases p.bounds with
  | nil => rfl
  | cons first others => simp [Function.comp_def]

theorem Parameter.separate_name (p : Parameter) (first : Bound) (isFirst : p.separate.head? = some first) :
    first.name = p.name := by
  rw [separate] at isFirst
  cases bounds : p.bounds with
  | nil => simp [bounds] at isFirst
  | cons type others =>
      rw [bounds] at isFirst
      obtain rfl := Option.some.inj isFirst
      rfl

theorem separate_apart (ps : List Parameter) (spelled : ∀ p ∈ ps, p.spelled endsVariable = true)
    (apart : ps.IsChain fun p q => p.endsOpen = true → q.name.head?.any opensBound = false) :
    (ps.flatMap Parameter.separate).IsChain Bound.Apart := by
  have nonempty : [] ∉ ps.map Parameter.separate := by
    intro member
    obtain ⟨p, isParameter, isNil⟩ := List.mem_map.mp member
    exact p.separate_ne_nil (spelled p isParameter) isNil
  rw [List.flatMap_def, List.isChain_flatten nonempty, List.isChain_map]
  refine ⟨fun bounds member => ?_, ?_⟩
  · obtain ⟨p, _, rfl⟩ := List.mem_map.mp member
    exact p.separate_apart
  · refine apart.imp fun p q follows last isLast next isNext isOpen => ?_
    have endsOpen : p.endsOpen = true := by
      rw [Parameter.endsOpen, ← p.separate_types, List.getLast?_map, isLast]
      exact isOpen
    rw [q.separate_name next isNext]
    exact follows endsOpen

theorem Bound.opens_bound_head (b : Bound) (rest : List Char) :
    (b.text ++ rest).head?.any opensBound = b.name.head?.any opensBound := by
  rw [text]
  cases b.name <;> rfl

theorem Bound.initial (b : Bound) (spelled : b.Spelled) : ∃ c more, b.text = c :: more ∧ c ≠ '>' := by
  obtain ⟨_, opens, _⟩ := spelled
  rw [text]
  cases name : b.name with
  | nil => exact ⟨_, _, rfl, by decide⟩
  | cons c more => exact ⟨c, _, rfl, by simpa [name] using opens⟩

theorem Bound.other_head (bounds : List Bound) (b : Bound) (rest : List Char)
    (apart : (b :: bounds).IsChain Apart) (isOpen : b.type.isNone = true) :
    (bounds.flatMap text ++ '>' :: rest).head?.any opensBound = false := by
  cases bounds with
  | nil => rfl
  | cons next more =>
      rw [List.flatMap_cons, List.append_assoc, next.opens_bound_head]
      exact (List.isChain_cons_cons.mp apart).1 isOpen

theorem bounds_unique (bounds bounds' : List Bound) (rest rest' : List Char)
    (spelled : ∀ b ∈ bounds, b.Spelled) (spelled' : ∀ b ∈ bounds', b.Spelled)
    (apart : bounds.IsChain Bound.Apart) (apart' : bounds'.IsChain Bound.Apart)
    (same : bounds.flatMap Bound.text ++ '>' :: rest = bounds'.flatMap Bound.text ++ '>' :: rest') :
    bounds = bounds' ∧ rest = rest' := by
  induction bounds generalizing bounds' with
  | nil =>
      cases bounds' with
      | nil => exact ⟨rfl, (List.cons.inj same).2⟩
      | cons b' bounds' =>
          obtain ⟨c, more, begins, inside⟩ := b'.initial (spelled' b' List.mem_cons_self)
          rw [List.flatMap_cons, begins] at same
          exact absurd (List.cons.inj same).1.symm inside
  | cons b bounds ih =>
      cases bounds' with
      | nil =>
          obtain ⟨c, more, begins, inside⟩ := b.initial (spelled b List.mem_cons_self)
          rw [List.flatMap_cons, begins] at same
          exact absurd (List.cons.inj same).1 inside
      | cons b' bounds' =>
          obtain ⟨plain, _, isType⟩ := spelled b List.mem_cons_self
          obtain ⟨plain', _, isType'⟩ := spelled' b' List.mem_cons_self
          have later := ih bounds' (fun c member => spelled c (List.mem_cons_of_mem _ member))
            (fun c member => spelled' c (List.mem_cons_of_mem _ member)) apart.tail apart'.tail
          have other := Bound.other_head bounds b rest apart
          have other' := Bound.other_head bounds' b' rest' apart'
          obtain ⟨name, type⟩ := b
          obtain ⟨name', type'⟩ := b'
          simp only [List.flatMap_cons, Bound.text, Parameter.boundText, List.append_assoc,
            List.cons_append] at same
          obtain ⟨rfl, sameBound⟩ := append_inj_of_stop (· = ':') name name' _ _
            (by simpa using plain) (by simpa using plain') ⟨_, _, rfl, rfl⟩ ⟨_, _, rfl, rfl⟩ same
          replace sameBound := (List.cons.inj sameBound).2
          cases type with
          | none =>
              cases type' with
              | none =>
                  obtain ⟨rfl, rfl⟩ := later sameBound
                  exact ⟨rfl, rfl⟩
              | some t' =>
                  obtain ⟨c, more, begins, opens⟩ := t'.text_reference (isType' t' rfl).1
                  have head := other rfl
                  simp only [Option.elim_none, Option.elim_some, List.nil_append] at sameBound
                  rw [sameBound, begins] at head
                  exact absurd (head.symm.trans opens) (by decide)
          | some t =>
              cases type' with
              | none =>
                  obtain ⟨c, more, begins, opens⟩ := t.text_reference (isType t rfl).1
                  have head := other' rfl
                  simp only [Option.elim_none, Option.elim_some, List.nil_append] at sameBound
                  rw [← sameBound, begins] at head
                  exact absurd (head.symm.trans opens) (by decide)
              | some t' =>
                  obtain ⟨rfl, sameRest⟩ := TypeTree.text_append_inj t t' _ _ (isType t rfl).2
                    (isType' t' rfl).2 sameBound
                  obtain ⟨rfl, rfl⟩ := later sameRest
                  exact ⟨rfl, rfl⟩

end Bounds

section Items

theorem Item.mark_ne_type (c : Char) (t : TypeTree) (rest rest' : List Char)
    (spelled : (Item.mark c).spelled endsVariable = true) (spelled' : (Item.type t).spelled endsVariable = true) :
    c :: rest ≠ t.text ++ rest' := by
  intro same
  obtain ⟨d, more, begins, isType⟩ := t.text_cons endsVariable .top spelled'
  rw [begins] at same
  obtain ⟨rfl, -⟩ := List.cons.inj same
  have isMark : (c = '(' ∨ c = ')') ∨ c = '^' := by simpa [Item.spelled] using spelled
  rcases isMark with (rfl | rfl) | rfl <;> cases isType

theorem Item.text_ne_nil (i : Item) (spelled : i.spelled endsVariable = true) : i.text ≠ [] := by
  cases i with
  | mark c => exact List.cons_ne_nil c []
  | type t =>
      obtain ⟨c, more, begins, _⟩ := t.text_cons endsVariable .top spelled
      rw [text, begins]
      exact List.cons_ne_nil c more

theorem items_unique (items items' : List Item) (spelled : ∀ i ∈ items, i.spelled endsVariable = true)
    (spelled' : ∀ i ∈ items', i.spelled endsVariable = true)
    (same : items.flatMap Item.text = items'.flatMap Item.text) : items = items' := by
  induction items generalizing items' with
  | nil =>
      cases items' with
      | nil => rfl
      | cons i' items' =>
          have isNil := (List.append_eq_nil_iff.mp same.symm).1
          exact absurd isNil (i'.text_ne_nil (spelled' i' List.mem_cons_self))
  | cons i items ih =>
      cases items' with
      | nil =>
          have isNil := (List.append_eq_nil_iff.mp same).1
          exact absurd isNil (i.text_ne_nil (spelled i List.mem_cons_self))
      | cons i' items' =>
          have this := spelled i List.mem_cons_self
          have this' := spelled' i' List.mem_cons_self
          have later := ih items' (fun j member => spelled j (List.mem_cons_of_mem _ member))
            (fun j member => spelled' j (List.mem_cons_of_mem _ member))
          rw [List.flatMap_cons, List.flatMap_cons] at same
          cases i <;> cases i'
          case mark.mark c c' =>
            obtain ⟨rfl, sameRest⟩ := List.cons.inj same
            rw [later sameRest]
          case type.type t t' =>
            obtain ⟨rfl, sameRest⟩ := TypeTree.text_append_inj t t' _ _ this this' same
            rw [later sameRest]
          case mark.type c t => exact absurd same (Item.mark_ne_type c t _ _ this this')
          case type.mark t c => exact absurd same.symm (Item.mark_ne_type c t _ _ this' this)

theorem items_not_generic (items : List Item) (rest : List Char)
    (spelled : ∀ i ∈ items, i.spelled endsVariable = true) : items.flatMap Item.text ≠ '<' :: rest := by
  intro same
  have reads := scan_items items spelled
  rw [same] at reads
  cases reads

end Items

-- A signature with the bounds of its type parameters one by one.
def Tree.separate (t : Tree) : Option (List Bound) × List Item :=
  (t.parameters.map (·.flatMap Parameter.separate), t.items)

theorem separate_text (ps : List Parameter) (spelled : ∀ p ∈ ps, p.spelled endsVariable = true) :
    (ps.flatMap Parameter.separate).flatMap Bound.text = ps.flatMap Parameter.text := by
  rw [List.flatMap_assoc]
  exact List.flatMap_congr fun p member => p.separate_text (spelled p member)

theorem Tree.separate_unique (t t' : Tree) (readable : t.Readable) (readable' : t'.Readable)
    (same : t.text = t'.text) : t.separate = t'.separate := by
  obtain ⟨parameters, items⟩ := t
  obtain ⟨parameters', items'⟩ := t'
  obtain ⟨spelled, apart, spelledItems⟩ := readable
  obtain ⟨spelled', apart', spelledItems'⟩ := readable'
  dsimp only at spelled apart spelledItems spelled' apart' spelledItems'
  cases parameters with
  | none =>
      cases parameters' with
      | none =>
          rw [separate, separate, items_unique items items' spelledItems spelledItems' same]
      | some ps' => exact absurd same (items_not_generic items _ spelledItems)
  | some ps =>
      cases parameters' with
      | none => exact absurd same.symm (items_not_generic items' _ spelledItems')
      | some ps' =>
          have sameBounds := (List.cons.inj same).2
          simp only [← separate_text ps spelled, ← separate_text ps' spelled'] at sameBounds
          have spelledBounds : ∀ b ∈ ps.flatMap Parameter.separate, b.Spelled := by
            intro b member
            obtain ⟨p, isParameter, isBound⟩ := List.mem_flatMap.mp member
            exact p.separate_spelled (spelled p isParameter) b isBound
          have spelledBounds' : ∀ b ∈ ps'.flatMap Parameter.separate, b.Spelled := by
            intro b member
            obtain ⟨p, isParameter, isBound⟩ := List.mem_flatMap.mp member
            exact p.separate_spelled (spelled' p isParameter) b isBound
          obtain ⟨agree, sameItems⟩ := bounds_unique _ _ (items.flatMap Item.text)
            (items'.flatMap Item.text) spelledBounds spelledBounds' (separate_apart ps spelled apart)
            (separate_apart ps' spelled' apart') (by simpa using sameBounds)
          exact Prod.ext (congrArg some agree)
            (items_unique items items' spelledItems spelledItems' sameItems)

end Signature

end JvmEdit
