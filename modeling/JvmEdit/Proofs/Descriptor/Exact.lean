import JvmEdit.Proofs.Descriptor.Reading
set_option autoImplicit false

namespace JvmEdit

namespace Signature

section Parsing

theorem scan_cons_is_some (mode : Mode) (c : Char) (text : List Char)
    (reads : (scan mode [] (c :: text)).isSome = true) :
    ∃ mode', modeStep mode c = some mode' ∧ (scan mode' [] text).isSome = true := by
  cases step : modeStep mode c with
  | none => simp [scan, step] at reads
  | some mode' =>
      rw [scan_cons mode mode' c text step, Option.isSome_map] at reads
      exact ⟨mode', rfl, reads⟩

theorem exists_stop (modes : List Char → Mode) (stops : Char → Bool)
    (stays : ∀ before c, stops c = false → modeStep (modes before) c = some (modes (c :: before)))
    (unfinished : ∀ before, accepts (modes before) = false) (before text : List Char)
    (reads : (scan (modes before) [] text).isSome = true) :
    ∃ name stop rest, text = name ++ stop :: rest ∧ (∀ c ∈ name, stops c = false) ∧ stops stop = true := by
  induction text generalizing before with
  | nil => simp [scan, unfinished before] at reads
  | cons c text ih =>
      cases stop : stops c with
      | true => exact ⟨[], c, text, rfl, by simp, stop⟩
      | false =>
          obtain ⟨mode', step, readsRest⟩ := scan_cons_is_some _ c text reads
          obtain rfl := Option.some.inj ((stays before c stop).symm.trans step)
          obtain ⟨name, last, rest, rfl, plain, ends⟩ := ih (c :: before) readsRest
          refine ⟨c :: name, last, rest, rfl, fun d member => ?_, ends⟩
          cases member with
          | head => exact stop
          | tail _ member => exact plain d member

theorem exists_class_name (place : Place) (text : List Char)
    (reads : (scan (.className place []) [] text).isSome = true) :
    ∃ name stop rest, text = name ++ stop :: rest ∧ (∀ c ∈ name, endsName c = false) ∧
      (scan (.classTail place) [] (stop :: rest)).isSome = true := by
  obtain ⟨name, stop, rest, rfl, plain, ends⟩ := exists_stop (.className place) endsName
    (fun before c inside => by simp [modeStep, inside]) (fun _ => rfl) [] text reads
  rw [scan_named place name stop rest plain ends, Option.isSome_map] at reads
  exact ⟨name, stop, rest, rfl, plain, reads⟩

theorem exists_member_name (place : Place) (text : List Char)
    (reads : (scan (.memberName place) [] text).isSome = true) :
    ∃ name stop rest, text = name ++ stop :: rest ∧ (∀ c ∈ name, endsName c = false) ∧
      (scan (.classTail place) [] (stop :: rest)).isSome = true := by
  obtain ⟨name, stop, rest, rfl, plain, ends⟩ := exists_stop (fun _ => .memberName place) endsName
    (fun _ c inside => by simp [modeStep, inside]) (fun _ => rfl) [] text reads
  rw [scan_member_name place name stop rest plain ends, Option.isSome_map] at reads
  exact ⟨name, stop, rest, rfl, plain, reads⟩

theorem exists_type_variable (place : Place) (text : List Char)
    (reads : (scan (.typeVariable place) [] text).isSome = true) :
    ∃ name rest, text = name ++ ';' :: rest ∧ ∀ c ∈ name, endsVariable c = false := by
  obtain ⟨name, stop, rest, rfl, plain, ends⟩ := exists_stop (fun _ => .typeVariable place) endsVariable
    (fun _ c inside => by simp [modeStep, show c ≠ ';' by simpa [endsVariable] using inside])
    (fun _ => rfl) [] text reads
  obtain rfl : stop = ';' := by simpa [endsVariable] using ends
  exact ⟨name, rest, rfl, plain⟩

theorem TypeTree.text_length_pos (stops : Char → Bool) (t : TypeTree) (spelled : t.spelled stops = true) :
    0 < t.text.length := by
  obtain ⟨c, more, begins, _⟩ := t.text_cons stops .top spelled
  rw [begins]
  exact Nat.succ_pos _

theorem type_step_cases (place : Place) (c : Char) (mode : Mode) (step : typeStep place c = some mode) :
    isBase c = true ∧ mode = .next place ∨ c = '[' ∧ mode = .type place ∨
      c = 'T' ∧ mode = .typeVariable place ∨ c = 'L' ∧ mode = .className place [] := by
  unfold typeStep at step
  grind

theorem tail_step_cases (place : Place) (c : Char) (mode : Mode) (step : tailStep place c = some mode) :
    c = ';' ∨ c = '<' ∧ mode = .next (.arguments place) ∨ c = '.' ∧ mode = .memberName place := by
  unfold tailStep at step
  grind

theorem argument_step_cases (place : Place) (c : Char) (mode : Mode)
    (step : nextStep (.arguments place) c = some mode) :
    c = '>' ∨ c = '*' ∧ mode = .next (.arguments place) ∨
      (∃ sign : Sign, c = sign.char ∧ mode = .type (.arguments place)) ∨
      typeStep (.arguments place) c = some mode := by
  rw [nextStep] at step
  split at step
  case isTrue isEnd => exact .inl isEnd
  case isFalse =>
    split at step
    case isTrue isAny => exact .inr (.inl ⟨isAny, (Option.some.inj step).symm⟩)
    case isFalse =>
      split at step
      case isTrue isSign =>
        refine .inr (.inr (.inl ?_))
        rcases (by simpa using isSign : c = '+' ∨ c = '-') with rfl | rfl
        · exact ⟨.plus, rfl, (Option.some.inj step).symm⟩
        · exact ⟨.minus, rfl, (Option.some.inj step).symm⟩
      case isFalse => exact .inr (.inr (.inr step))

mutual

theorem TypeTree.of_scan (place : Place) (text : List Char)
    (reads : (scan (.type place) [] text).isSome = true) :
    ∃ (t : TypeTree) (rest : List Char), t.spelled endsVariable = true ∧ text = t.text ++ rest ∧
      (scan (.next place) [] rest).isSome = true := by
  suffices ∃ (t : TypeTree) (rest : List Char), t.spelled endsVariable = true ∧ text = t.text ++ rest by
    obtain ⟨t, rest, spelled, rfl⟩ := this
    rw [t.scan_text place rest spelled, Option.isSome_map] at reads
    exact ⟨t, rest, spelled, rfl, reads⟩
  cases text with
  | nil => cases reads
  | cons c text =>
      obtain ⟨mode, step, readsRest⟩ := scan_cons_is_some _ c text reads
      rcases type_step_cases place c mode step with
        ⟨isLetter, _⟩ | ⟨rfl, rfl⟩ | ⟨rfl, rfl⟩ | ⟨rfl, rfl⟩
      · exact ⟨.base c, text, isLetter, rfl⟩
      · obtain ⟨element, rest, spelled, rfl, _⟩ := TypeTree.of_scan place text readsRest
        exact ⟨.array element, rest, spelled, rfl⟩
      · obtain ⟨name, rest, rfl, plain⟩ := exists_type_variable place text readsRest
        exact ⟨.typeVariable name, rest, by simpa [TypeTree.spelled] using plain,
          by simp [TypeTree.text]⟩
      · obtain ⟨name, stop, more, rfl, plain, readsTail⟩ := exists_class_name place text readsRest
        obtain ⟨tail, rest, spelled, begins, _⟩ := Tail.of_scan place (stop :: more) readsTail
        exact ⟨.named name tail, rest, by simpa [TypeTree.spelled, spelled] using plain,
          by simp [TypeTree.text, begins]⟩
termination_by (text.length, 0)

theorem Tail.of_scan (place : Place) (text : List Char)
    (reads : (scan (.classTail place) [] text).isSome = true) :
    ∃ (t : Tail) (rest : List Char), t.spelled endsVariable = true ∧ text = t.text ++ rest ∧
      (scan (.next place) [] rest).isSome = true := by
  suffices ∃ (t : Tail) (rest : List Char), t.spelled endsVariable = true ∧ text = t.text ++ rest by
    obtain ⟨t, rest, spelled, rfl⟩ := this
    rw [t.scan_text place rest spelled, Option.isSome_map] at reads
    exact ⟨t, rest, spelled, rfl, reads⟩
  cases text with
  | nil => cases reads
  | cons c text =>
      obtain ⟨mode, step, readsRest⟩ := scan_cons_is_some _ c text reads
      rcases tail_step_cases place c mode step with rfl | ⟨rfl, rfl⟩ | ⟨rfl, rfl⟩
      · exact ⟨.stop, text, rfl, rfl⟩
      · obtain ⟨arguments, more, spelledArguments, rfl, readsTail⟩ := Arguments.of_scan place text readsRest
        obtain ⟨tail, rest, spelled, rfl, _⟩ := Tail.of_scan place more readsTail
        exact ⟨.arguments arguments tail, rest, by simp [Tail.spelled, spelledArguments, spelled],
          by simp [Tail.text]⟩
      · obtain ⟨name, stop, more, rfl, plain, readsTail⟩ := exists_member_name place text readsRest
        obtain ⟨tail, rest, spelled, begins, _⟩ := Tail.of_scan place (stop :: more) readsTail
        exact ⟨.member name tail, rest, by simpa [Tail.spelled, spelled] using plain,
          by simp [Tail.text, begins]⟩
termination_by (text.length, 0)

theorem Arguments.of_scan (place : Place) (text : List Char)
    (reads : (scan (.next (.arguments place)) [] text).isSome = true) :
    ∃ (a : Arguments) (rest : List Char), a.spelled endsVariable = true ∧ text = a.text ++ rest ∧
      (scan (.classTail place) [] rest).isSome = true := by
  suffices ∃ (a : Arguments) (rest : List Char), a.spelled endsVariable = true ∧ text = a.text ++ rest by
    obtain ⟨a, rest, spelled, rfl⟩ := this
    rw [a.scan_text place rest spelled, Option.isSome_map] at reads
    exact ⟨a, rest, spelled, rfl, reads⟩
  cases text with
  | nil => cases reads
  | cons c text =>
      obtain ⟨mode, step, readsRest⟩ := scan_cons_is_some _ c text reads
      rcases argument_step_cases place c mode step with rfl | ⟨rfl, rfl⟩ | ⟨sign, rfl, rfl⟩ | isType
      · exact ⟨.stop, text, rfl, rfl⟩
      · obtain ⟨more, rest, spelled, rfl, _⟩ := Arguments.of_scan place text readsRest
        exact ⟨.any more, rest, spelled, rfl⟩
      · obtain ⟨type, after, spelledType, rfl, readsMore⟩ :=
          TypeTree.of_scan (.arguments place) text readsRest
        obtain ⟨more, rest, spelled, rfl, _⟩ := Arguments.of_scan place after readsMore
        exact ⟨.bounded sign type more, rest, by simp [Arguments.spelled, spelledType, spelled],
          by simp [Arguments.text]⟩
      · rw [scan_next_type _ c text (by simp) (by rw [isType]; rfl)] at reads
        obtain ⟨type, after, spelledType, begins, readsMore⟩ :=
          TypeTree.of_scan (.arguments place) (c :: text) reads
        have shorter : after.length < text.length + 1 := by
          have same := congrArg List.length begins
          have nonempty := type.text_length_pos endsVariable spelledType
          rw [List.length_cons, List.length_append] at same
          omega
        obtain ⟨more, rest, spelled, rfl, _⟩ := Arguments.of_scan place after readsMore
        exact ⟨.exact type more, rest, by simp [Arguments.spelled, spelledType, spelled],
          by simp [Arguments.text, begins]⟩
termination_by (text.length, 1)
decreasing_by
  all_goals subst_vars
  all_goals simp only [Prod.lex_def, List.length_append, List.length_cons, true_and]
  all_goals omega

end

theorem Parameter.text_length_pos (stops : Char → Bool) (p : Parameter) (spelled : p.spelled stops = true) :
    0 < p.text.length := by
  obtain ⟨more, begins⟩ := p.bounds_cons stops spelled
  rw [text, begins, List.length_append, List.length_cons]
  omega

theorem exists_parameter_name (c : Char) (text : List Char) (inside : c ≠ '>')
    (reads : (scan (.next .bound) [] (c :: text)).isSome = true) :
    ∃ name rest, c :: text = name ++ ':' :: rest ∧ (∀ d ∈ name, d ≠ ':') ∧ name.head? ≠ some '>' := by
  by_cases colon : c = ':'
  · exact ⟨[], text, by rw [colon]; rfl, by simp, by simp⟩
  · obtain ⟨mode, step, readsRest⟩ := scan_cons_is_some _ c text reads
    have isName : mode = .parameterName := by simpa [modeStep, nextStep, colon, inside, eq_comm] using step
    subst isName
    obtain ⟨name, stop, rest, rfl, plain, ends⟩ := exists_stop (fun _ => .parameterName) (· = ':')
      (fun _ d other => by simp [modeStep, show d ≠ ':' by simpa using other]) (fun _ => rfl) [] text readsRest
    obtain rfl : stop = ':' := by simpa using ends
    refine ⟨c :: name, rest, rfl, fun d member => ?_, by simpa using inside⟩
    cases member with
    | head => exact colon
    | tail _ member => simpa using plain d member

theorem Parameter.of_scan (c : Char) (text : List Char) (inside : c ≠ '>')
    (reads : (scan (.next .bound) [] (c :: text)).isSome = true) :
    ∃ (p : Parameter) (rest : List Char), p.spelled endsVariable = true ∧ c :: text = p.text ++ rest ∧
      (p.endsOpen = true → rest.head?.any opensBound = false) ∧
      (scan (.next .bound) [] rest).isSome = true := by
  suffices ∃ (p : Parameter) (rest : List Char), p.spelled endsVariable = true ∧
      c :: text = p.text ++ rest ∧ (p.endsOpen = true → rest.head?.any opensBound = false) by
    obtain ⟨p, rest, spelled, whole, apart⟩ := this
    rw [whole, p.scan_text rest spelled apart, Option.isSome_map] at reads
    exact ⟨p, rest, spelled, whole, apart, reads⟩
  obtain ⟨name, after, whole, plain, opens⟩ := exists_parameter_name c text inside reads
  rw [whole, scan_parameter_name name after plain opens, Option.isSome_map,
    scan_mark _ .boundStart ':' _ rfl rfl, Option.isSome_map] at reads
  cases bound : after.head?.any opensBound with
  | false =>
      refine ⟨⟨name, [none]⟩, after, ?_, ?_, fun _ => bound⟩
      · simpa [Parameter.spelled] using ⟨plain, opens⟩
      · simp [Parameter.text, Parameter.boundText, whole]
  | true =>
      cases after with
      | nil => cases bound
      | cons d more =>
          have opensType : opensBound d = true := bound
          rw [scan_bound_start_type d more opensType] at reads
          obtain ⟨t, rest, spelled, begins, _⟩ := TypeTree.of_scan .bound (d :: more) reads
          have reference : t.isReference = true := by
            cases t with
            | base letter =>
                obtain ⟨rfl, -⟩ := List.cons.inj begins
                rcases (by simpa [opensBound, or_assoc] using opensType : d = 'L' ∨ d = 'T' ∨ d = '[')
                  with rfl | rfl | rfl <;> cases spelled
            | _ => rfl
          refine ⟨⟨name, [some t]⟩, rest, ?_, ?_, fun isOpen => by cases isOpen⟩
          · simpa [Parameter.spelled, reference, spelled] using ⟨plain, opens⟩
          · simp [Parameter.text, Parameter.boundText, whole, begins]

theorem exists_parameters (text : List Char) (reads : (scan (.next .bound) [] text).isSome = true) :
    ∃ (ps : List Parameter) (rest : List Char), (∀ p ∈ ps, p.spelled endsVariable = true) ∧
      ps.IsChain (fun p q => p.endsOpen = true → q.name.head?.any opensBound = false) ∧
      text = ps.flatMap Parameter.text ++ '>' :: rest := by
  cases text with
  | nil => cases reads
  | cons c text =>
      by_cases ends : c = '>'
      · exact ⟨[], text, by simp, .nil, by simp [ends]⟩
      · obtain ⟨p, after, spelled, whole, apart, readsRest⟩ := Parameter.of_scan c text ends reads
        have shorter : after.length < text.length + 1 := by
          have same := congrArg List.length whole
          have nonempty := p.text_length_pos endsVariable spelled
          rw [List.length_cons, List.length_append] at same
          omega
        obtain ⟨ps, rest, spelledRest, apartRest, rfl⟩ := exists_parameters after readsRest
        refine ⟨p :: ps, rest, ?_, List.isChain_cons.mpr ⟨fun q isNext isOpen => ?_, apartRest⟩, ?_⟩
        · simpa [spelled] using spelledRest
        · obtain ⟨qs, rfl⟩ := List.head?_eq_some_iff.mp isNext
          have head := apart isOpen
          rw [List.flatMap_cons, List.append_assoc,
            q.opens_bound_head endsVariable _ (spelledRest q List.mem_cons_self)] at head
          exact head
        · rw [whole, List.flatMap_cons, List.append_assoc]
termination_by text.length

theorem top_step_cases (c : Char) (mode : Mode) (step : nextStep .top c = some mode) :
    (Item.mark c).spelled endsVariable = true ∧ mode = .next .top ∨ typeStep .top c = some mode := by
  rw [nextStep] at step
  split at step
  case isTrue isMark => exact .inl ⟨isMark, (Option.some.inj step).symm⟩
  case isFalse => exact .inr step

theorem exists_items (text : List Char) (reads : (scan (.next .top) [] text).isSome = true) :
    ∃ items : List Item, (∀ i ∈ items, i.spelled endsVariable = true) ∧ text = items.flatMap Item.text := by
  cases text with
  | nil => exact ⟨[], by simp, rfl⟩
  | cons c text =>
      obtain ⟨mode, step, readsRest⟩ := scan_cons_is_some _ c text reads
      rcases top_step_cases c mode step with ⟨isMark, rfl⟩ | isType
      · obtain ⟨items, spelled, rfl⟩ := exists_items text readsRest
        exact ⟨.mark c :: items, by simpa [isMark] using spelled, rfl⟩
      · rw [scan_next_type _ c text (by simp) (by rw [isType]; rfl)] at reads
        obtain ⟨t, after, spelledType, begins, readsAfter⟩ := TypeTree.of_scan .top (c :: text) reads
        have shorter : after.length < text.length + 1 := by
          have same := congrArg List.length begins
          have nonempty := t.text_length_pos endsVariable spelledType
          rw [List.length_cons, List.length_append] at same
          omega
        obtain ⟨items, spelled, rfl⟩ := exists_items after readsAfter
        have isSpelled : (Item.type t).spelled endsVariable = true := spelledType
        exact ⟨.type t :: items, by simpa [isSpelled] using spelled, by rw [begins]; rfl⟩
termination_by text.length

theorem exists_readable (text : List Char) (reads : (tokens? text).isSome = true) :
    ∃ t : Tree, t.Readable ∧ t.text = text := by
  have plain : (scan (.next .top) [] text).isSome = true → ∃ t : Tree, t.Readable ∧ t.text = text := by
    intro readsItems
    obtain ⟨items, spelled, rfl⟩ := exists_items text readsItems
    exact ⟨⟨none, items⟩, ⟨by simp, .nil, spelled⟩, rfl⟩
  cases text with
  | nil => exact plain reads
  | cons c text =>
      by_cases generic : c = '<'
      · subst generic
        rw [tokens?, scan_mark .start (.next .bound) '<' _ rfl rfl, Option.isSome_map] at reads
        obtain ⟨ps, rest, spelled, apart, rfl⟩ := exists_parameters text reads
        rw [scan_parameters ps rest spelled apart, Option.isSome_map] at reads
        obtain ⟨items, spelledItems, rfl⟩ := exists_items rest reads
        exact ⟨⟨some ps, items⟩, ⟨spelled, apart, spelledItems⟩, by simp [Tree.text]⟩
      · rw [tokens?, scan_congr .start (.next .top) c text (if_neg generic) rfl] at reads
        exact plain reads

end Parsing

section Regular

variable (stops wider : Char → Bool)

mutual

theorem TypeTree.spelled_wider (wide : ∀ c, stops c = false → wider c = false) (t : TypeTree)
    (spelled : t.spelled stops = true) : t.spelled wider = true := by
  cases t with
  | base letter => exact spelled
  | array element => exact element.spelled_wider wide spelled
  | typeVariable name =>
      simp only [TypeTree.spelled, List.all_eq_true, Bool.not_eq_true'] at spelled ⊢
      exact fun c member => wide c (spelled c member)
  | named name tail =>
      simp only [TypeTree.spelled, Bool.and_eq_true] at spelled ⊢
      exact ⟨spelled.1, tail.spelled_wider wide spelled.2⟩

theorem Tail.spelled_wider (wide : ∀ c, stops c = false → wider c = false) (t : Tail)
    (spelled : t.spelled stops = true) : t.spelled wider = true := by
  cases t with
  | stop => rfl
  | member name tail =>
      simp only [Tail.spelled, Bool.and_eq_true] at spelled ⊢
      exact ⟨spelled.1, tail.spelled_wider wide spelled.2⟩
  | arguments arguments tail =>
      simp only [Tail.spelled, Bool.and_eq_true] at spelled ⊢
      exact ⟨arguments.spelled_wider wide spelled.1, tail.spelled_wider wide spelled.2⟩

theorem Arguments.spelled_wider (wide : ∀ c, stops c = false → wider c = false) (a : Arguments)
    (spelled : a.spelled stops = true) : a.spelled wider = true := by
  cases a with
  | stop => rfl
  | any rest => exact rest.spelled_wider wide spelled
  | bounded sign type rest =>
      simp only [Arguments.spelled, Bool.and_eq_true] at spelled ⊢
      exact ⟨type.spelled_wider wide spelled.1, rest.spelled_wider wide spelled.2⟩
  | exact type rest =>
      simp only [Arguments.spelled, Bool.and_eq_true] at spelled ⊢
      exact ⟨type.spelled_wider wide spelled.1, rest.spelled_wider wide spelled.2⟩

end

theorem Parameter.spelled_wider (wide : ∀ c, stops c = false → wider c = false) (p : Parameter)
    (spelled : p.spelled stops = true) : p.spelled wider = true := by
  rw [spelled_iff] at spelled ⊢
  obtain ⟨plain, opens, bounded, types⟩ := spelled
  refine ⟨plain, opens, bounded, fun bound member t isType => ?_⟩
  obtain ⟨reference, spelledType⟩ := types bound member t isType
  exact ⟨reference, t.spelled_wider stops wider wide spelledType⟩

theorem Item.spelled_wider (wide : ∀ c, stops c = false → wider c = false) (i : Item)
    (spelled : i.spelled stops = true) : i.spelled wider = true := by
  cases i with
  | mark c => exact spelled
  | type t => exact t.spelled_wider stops wider wide spelled

theorem ends_variable_of_ends_name (c : Char) (inside : endsName c = false) : endsVariable c = false := by
  simp only [endsName, Bool.or_eq_false_iff] at inside
  exact inside.1.1

theorem Parameter.ends_open_of_is_complete (p : Parameter) (complete : p.isComplete = true) :
    p.endsOpen = false := by
  rw [isComplete, Bool.and_eq_true, List.all_eq_true] at complete
  obtain ⟨given, others⟩ := complete
  rw [endsOpen]
  cases bounds : p.bounds with
  | nil => rfl
  | cons bound more =>
      rw [bounds] at given others
      cases more with
      | nil => simpa using others
      | cons second later =>
          have last : ∃ b ∈ second :: later, (second :: later).getLast? = some b :=
            ⟨_, List.getLast_mem (by simp), List.getLast?_eq_some_getLast (by simp)⟩
          obtain ⟨b, member, isLast⟩ := last
          rw [List.getLast?_cons_cons, isLast, Option.any_some]
          simpa using given b member

theorem Tree.Regular.readable {t : Tree} (regular : t.Regular) : t.Readable := by
  obtain ⟨parameters, items⟩ := regular
  refine ⟨fun p member => ?_, ?_, fun i member => ?_⟩
  · exact p.spelled_wider endsName _ ends_variable_of_ends_name (parameters p member).1
  · refine List.isChain_iff_getElem.mpr fun i inside isOpen => ?_
    have complete := (parameters _ (List.getElem_mem (Nat.lt_of_succ_lt inside))).2
    rw [Parameter.ends_open_of_is_complete _ complete] at isOpen
    cases isOpen
  · exact i.spelled_wider endsName _ ends_variable_of_ends_name (items i member)

end Regular

theorem Tree.rename?_text (t : Tree) (readable : t.Readable) (text old new : String)
    (same : t.text = text.toList) : rename? text old new =
      if old.toList ∈ t.classNames then some (String.ofList (t.rename old.toList new.toList).text) else none := by
  have reads := t.tokens?_text readable
  rw [same] at reads
  rw [rename?, reads, Option.bind_some, ← t.tokens_rename, Tree.render_tokens]
  simp [t.mem_tokens]

-- The text of a tree of the grammar is rewritten at the class names that are the old one and nowhere
-- else, and when none of them is, not at all. Any other text is rewritten only when it is the text of
-- a tree in the wider sense, and then as wholly as that.
theorem rename?_exact (text old new : String) :
    (∀ t : Tree, t.Regular → t.text = text.toList → rename? text old new =
      if old.toList ∈ t.classNames then some (String.ofList (t.rename old.toList new.toList).text) else none) ∧
    ∀ renamed, rename? text old new = some renamed → ∃ t : Tree, t.Readable ∧ t.text = text.toList ∧
      old.toList ∈ t.classNames ∧ renamed = String.ofList (t.rename old.toList new.toList).text := by
  refine ⟨fun t regular same => t.rename?_text regular.readable text old new same, fun renamed rewritten => ?_⟩
  obtain ⟨tokens, reads, _⟩ := Option.bind_eq_some_iff.mp rewritten
  obtain ⟨t, readable, same⟩ := exists_readable text.toList (by rw [reads]; rfl)
  rw [t.rename?_text readable text old new same] at rewritten
  obtain ⟨named, isText⟩ := Option.ite_none_right_eq_some.mp rewritten
  exact ⟨t, readable, same, named, (Option.some.inj isText).symm⟩

-- The signature of a generic method whose type parameters are bounded by the class and by an
-- interface that takes it as an argument.
def boundedSignature : Tree where
  parameters := some
    [⟨['T'], [some (.named "Foo".toList .stop)]⟩,
     ⟨['U'], [none, some (.named "java/lang/Comparable".toList
        (.arguments (.bounded .minus (.named "Foo".toList .stop) .stop) .stop))]⟩]
  items :=
    [.mark '(', .type (.typeVariable ['T']), .type (.base 'I'),
     .type (.named "java/util/List".toList
        (.arguments (.bounded .plus (.named "Foo".toList .stop) .stop) .stop)),
     .mark ')', .type (.named "Foo".toList .stop), .mark '^', .type (.named "Foo".toList .stop)]

theorem rename?_exact_bounded_signature :
    rename? "<T:LFoo;U::Ljava/lang/Comparable<-LFoo;>;>(TT;ILjava/util/List<+LFoo;>;)LFoo;^LFoo;" "Foo" "Bar" =
      some "<T:LBar;U::Ljava/lang/Comparable<-LBar;>;>(TT;ILjava/util/List<+LBar;>;)LBar;^LBar;" ∧
    ∃ t : Tree, t.Readable ∧ t.text = "<T:>LFoo;".toList ∧ "Foo".toList ∈ t.classNames ∧
      "<T:>LBar;" = String.ofList (t.rename "Foo".toList "Bar".toList).text := by
  have regular : boundedSignature.Regular := by
    unfold Tree.Regular boundedSignature
    decide
  exact ⟨(rename?_exact _ "Foo" "Bar").1 boundedSignature regular (by decide),
    (rename?_exact "<T:>LFoo;" "Foo" "Bar").2 _ (by decide)⟩

end Signature

end JvmEdit
