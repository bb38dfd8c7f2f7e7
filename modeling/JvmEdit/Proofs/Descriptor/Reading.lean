import JvmEdit.Proofs.Descriptor.Grammar
set_option autoImplicit false

namespace JvmEdit

namespace Signature

section Steps

theorem scan_congr (mode mode' : Mode) (c : Char) (text : List Char)
    (same : modeStep mode c = modeStep mode' c) (quiet : emitted mode c = emitted mode' c) :
    scan mode [] (c :: text) = scan mode' [] (c :: text) := by
  rw [scan, scan, same, quiet]

theorem scan_mark (mode mode' : Mode) (c : Char) (text : List Char)
    (step : modeStep mode c = some mode') (single : emitted mode c = [.mark c]) :
    scan mode [] (c :: text) = (scan mode' [] text).map (.mark c :: ·) := by
  rw [scan_cons mode mode' c text step, single]
  rfl

theorem scan_within (mode : Mode) (chars rest : List Char)
    (stays : ∀ c ∈ chars, modeStep mode c = some mode) (single : ∀ c, emitted mode c = [.mark c]) :
    scan mode [] (chars ++ rest) = (scan mode [] rest).map (chars.map .mark ++ ·) := by
  induction chars with
  | nil => simp
  | cons c chars ih =>
      rw [List.cons_append, scan_mark mode mode c _ (stays c List.mem_cons_self) (single c),
        ih fun d member => stays d (List.mem_cons_of_mem _ member)]
      simp [Function.comp_def]

theorem scan_named (place : Place) (name : List Char) (stop : Char) (rest : List Char)
    (plain : ∀ c ∈ name, endsName c = false) (ends : endsName stop = true) :
    scan (.className place []) [] (name ++ stop :: rest) =
      (scan (.classTail place) [] (stop :: rest)).map (.className name :: ·) := by
  rw [scan_class_name place name [] stop rest plain ends, scan, modeStep]
  cases tailStep place stop with
  | none => rfl
  | some mode =>
      dsimp only
      rw [scan_reversed mode]
      simp [emitted, Function.comp_def]

theorem scan_member_name (place : Place) (name : List Char) (stop : Char) (rest : List Char)
    (plain : ∀ c ∈ name, endsName c = false) (ends : endsName stop = true) :
    scan (.memberName place) [] (name ++ stop :: rest) =
      (scan (.classTail place) [] (stop :: rest)).map (name.map .mark ++ ·) := by
  have stays : ∀ c ∈ name, modeStep (.memberName place) c = some (.memberName place) := by
    intro c member
    rw [modeStep, if_neg (by simp [plain c member])]
  rw [scan_within (.memberName place) name _ stays fun _ => rfl]
  rw [scan_congr (.memberName place) (.classTail place) stop rest (by rw [modeStep, if_pos ends]; rfl) rfl]

theorem scan_type_variable (place : Place) (name rest : List Char) (plain : ∀ c ∈ name, c ≠ ';') :
    scan (.typeVariable place) [] (name ++ ';' :: rest) =
      (scan (.next place) [] rest).map ((name ++ [';']).map .mark ++ ·) := by
  have stays : ∀ c ∈ name, modeStep (.typeVariable place) c = some (.typeVariable place) := by
    intro c member
    simp [modeStep, plain c member]
  rw [scan_within _ name _ stays fun _ => rfl,
    scan_mark (.typeVariable place) (.next place) ';' rest rfl rfl]
  simp [Function.comp_def]

theorem scan_parameter_name (name rest : List Char) (plain : ∀ c ∈ name, c ≠ ':')
    (opens : name.head? ≠ some '>') : scan (.next .bound) [] (name ++ ':' :: rest) =
      (scan (.next .bound) [] (':' :: rest)).map (name.map .mark ++ ·) := by
  cases name with
  | nil => simp
  | cons c name =>
      have isName : modeStep (.next .bound) c = some .parameterName := by
        have notColon := plain c List.mem_cons_self
        have notEnd : c ≠ '>' := fun same => opens (congrArg some same)
        simp [modeStep, nextStep, notColon, notEnd]
      have stays : ∀ d ∈ name, modeStep .parameterName d = some .parameterName := by
        intro d member
        simp [modeStep, plain d (List.mem_cons_of_mem _ member)]
      rw [List.cons_append, scan_mark _ _ c _ isName rfl, scan_within _ name _ stays fun _ => rfl,
        scan_congr .parameterName (.next .bound) ':' rest rfl rfl]
      simp [Function.comp_def]

theorem scan_next_type (place : Place) (c : Char) (text : List Char) (inside : place ≠ .bound)
    (begins : (typeStep place c).isSome = true) :
    scan (.next place) [] (c :: text) = scan (.type place) [] (c :: text) := by
  refine scan_congr _ _ c text ?_ rfl
  have letters : c ≠ '(' ∧ c ≠ ')' ∧ c ≠ '^' ∧ c ≠ '>' ∧ c ≠ '*' ∧ c ≠ '+' ∧ c ≠ '-' := by
    refine ⟨?_, ?_, ?_, ?_, ?_, ?_, ?_⟩ <;>
    · rintro rfl
      simp [typeStep, isBase] at begins
  obtain ⟨opening, closing, thrown, stop, any, upper, lower⟩ := letters
  cases place with
  | top => simp [modeStep, nextStep, opening, closing, thrown]
  | bound => exact absurd rfl inside
  | arguments outer => simp [modeStep, nextStep, stop, any, upper, lower]

theorem scan_bound_start_type (c : Char) (text : List Char) (begins : opensBound c = true) :
    scan .boundStart [] (c :: text) = scan (.type .bound) [] (c :: text) := by
  refine scan_congr _ _ c text ?_ rfl
  simp only [opensBound, Bool.or_eq_true, decide_eq_true_eq] at begins
  rw [modeStep, if_pos (by simpa using begins), modeStep]

theorem scan_bound_start_other (text : List Char) (other : text.head?.any opensBound = false) :
    scan .boundStart [] text = scan (.next .bound) [] text := by
  cases text with
  | nil => rfl
  | cons c text =>
      refine scan_congr _ _ c text ?_ rfl
      have notType : ¬((c = 'L' || c = 'T' || c = '[') = true) := by simpa [opensBound] using other
      exact if_neg notType

end Steps

section Reading

variable (stops : Char → Bool)

theorem Tail.text_cons (t : Tail) : ∃ stop more, t.text = stop :: more ∧ endsName stop = true := by
  cases t with
  | stop => exact ⟨_, _, rfl, rfl⟩
  | member name tail => exact ⟨_, _, rfl, rfl⟩
  | arguments arguments tail => exact ⟨_, _, rfl, rfl⟩

theorem TypeTree.text_cons (place : Place) (t : TypeTree) (spelled : t.spelled stops = true) :
    ∃ c more, t.text = c :: more ∧ (typeStep place c).isSome = true := by
  cases t with
  | base letter =>
      have isLetter : isBase letter = true := spelled
      exact ⟨letter, [], rfl, by simp [typeStep, isLetter]⟩
  | array element => exact ⟨_, _, rfl, rfl⟩
  | typeVariable name => exact ⟨_, _, rfl, rfl⟩
  | named name tail => exact ⟨_, _, rfl, rfl⟩

theorem TypeTree.text_reference (t : TypeTree) (reference : t.isReference = true) :
    ∃ c more, t.text = c :: more ∧ opensBound c = true := by
  cases t with
  | base letter => cases reference
  | array element => exact ⟨_, _, rfl, rfl⟩
  | typeVariable name => exact ⟨_, _, rfl, rfl⟩
  | named name tail => exact ⟨_, _, rfl, rfl⟩

mutual

theorem TypeTree.scan_text (place : Place) (rest : List Char) (t : TypeTree)
    (spelled : t.spelled endsVariable = true) :
    scan (.type place) [] (t.text ++ rest) = (scan (.next place) [] rest).map (t.tokens ++ ·) := by
  cases t with
  | base letter =>
      have isLetter : isBase letter = true := spelled
      exact scan_mark _ _ letter rest (by simp [modeStep, typeStep, isLetter]) rfl
  | array element =>
      rw [TypeTree.text, List.cons_append, scan_mark _ (.type place) '[' _ rfl rfl,
        element.scan_text place rest spelled]
      simp [TypeTree.tokens, Function.comp_def]
  | typeVariable name =>
      have plain : ∀ c ∈ name, c ≠ ';' := by simpa [TypeTree.spelled, endsVariable] using spelled
      rw [TypeTree.text, List.cons_append, List.append_assoc, List.singleton_append,
        scan_mark _ (.typeVariable place) 'T' _ rfl rfl, scan_type_variable place name rest plain]
      simp [TypeTree.tokens, Function.comp_def]
  | named name tail =>
      obtain ⟨plain, spelledTail⟩ : (∀ c ∈ name, endsName c = false) ∧ tail.spelled endsVariable = true := by
        simpa [TypeTree.spelled] using spelled
      obtain ⟨stop, more, begins, ends⟩ := tail.text_cons
      have named := scan_named place name stop (more ++ rest) plain ends
      rw [← List.cons_append, ← begins, tail.scan_text place rest spelledTail] at named
      rw [TypeTree.text, List.cons_append, List.append_assoc, scan_mark _ (.className place []) 'L' _ rfl rfl, named]
      simp [TypeTree.tokens, Function.comp_def]

theorem Tail.scan_text (place : Place) (rest : List Char) (t : Tail)
    (spelled : t.spelled endsVariable = true) :
    scan (.classTail place) [] (t.text ++ rest) = (scan (.next place) [] rest).map (t.tokens ++ ·) := by
  cases t with
  | stop => exact scan_mark _ _ ';' rest rfl rfl
  | member name tail =>
      obtain ⟨plain, spelledTail⟩ : (∀ c ∈ name, endsName c = false) ∧ tail.spelled endsVariable = true := by
        simpa [Tail.spelled] using spelled
      obtain ⟨stop, more, begins, ends⟩ := tail.text_cons
      have named := scan_member_name place name stop (more ++ rest) plain ends
      rw [← List.cons_append, ← begins, tail.scan_text place rest spelledTail] at named
      rw [Tail.text, List.cons_append, List.append_assoc, scan_mark _ (.memberName place) '.' _ rfl rfl, named]
      simp [Tail.tokens, Function.comp_def]
  | arguments arguments tail =>
      obtain ⟨spelledArguments, spelledTail⟩ :
          arguments.spelled endsVariable = true ∧ tail.spelled endsVariable = true := by
        simpa [Tail.spelled] using spelled
      rw [Tail.text, List.cons_append, List.append_assoc,
        scan_mark _ (.next (.arguments place)) '<' _ rfl rfl,
        arguments.scan_text place _ spelledArguments, tail.scan_text place rest spelledTail]
      simp [Tail.tokens, Function.comp_def]

theorem Arguments.scan_text (place : Place) (rest : List Char) (a : Arguments)
    (spelled : a.spelled endsVariable = true) :
    scan (.next (.arguments place)) [] (a.text ++ rest) =
      (scan (.classTail place) [] rest).map (a.tokens ++ ·) := by
  cases a with
  | stop => exact scan_mark _ _ '>' rest rfl rfl
  | any more =>
      rw [Arguments.text, List.cons_append, scan_mark _ (.next (.arguments place)) '*' _ rfl rfl,
        more.scan_text place rest spelled]
      simp [Arguments.tokens, Function.comp_def]
  | bounded sign type more =>
      obtain ⟨spelledType, spelledRest⟩ :
          type.spelled endsVariable = true ∧ more.spelled endsVariable = true := by
        simpa [Arguments.spelled] using spelled
      have step : modeStep (.next (.arguments place)) sign.char = some (.type (.arguments place)) := by
        cases sign <;> rfl
      rw [Arguments.text, List.cons_append, List.append_assoc, scan_mark _ _ sign.char _ step rfl,
        type.scan_text (.arguments place) _ spelledType, more.scan_text place rest spelledRest]
      simp [Arguments.tokens, Function.comp_def]
  | exact type more =>
      obtain ⟨spelledType, spelledRest⟩ :
          type.spelled endsVariable = true ∧ more.spelled endsVariable = true := by
        simpa [Arguments.spelled] using spelled
      obtain ⟨c, tail, begins, isType⟩ := type.text_cons _ (.arguments place) spelledType
      have enters : scan (.next (.arguments place)) [] (type.text ++ (more.text ++ rest)) =
          scan (.type (.arguments place)) [] (type.text ++ (more.text ++ rest)) := by
        rw [begins]
        exact scan_next_type _ c _ (by simp) isType
      rw [Arguments.text, List.append_assoc, enters, type.scan_text (.arguments place) _ spelledType,
        more.scan_text place rest spelledRest]
      simp [Arguments.tokens, Function.comp_def]

end

theorem scan_bounds (bounds : List (Option TypeTree)) (rest : List Char)
    (spelled : ∀ bound ∈ bounds, ∀ t ∈ bound, t.isReference = true ∧ t.spelled endsVariable = true)
    (apart : bounds.getLast?.any Option.isNone = true → rest.head?.any opensBound = false) :
    scan (.next .bound) [] (bounds.flatMap Parameter.boundText ++ rest) =
      (scan (.next .bound) [] rest).map (bounds.flatMap Parameter.boundTokens ++ ·) := by
  induction bounds with
  | nil => simp
  | cons bound bounds ih =>
      have later := ih (fun other member => spelled other (List.mem_cons_of_mem _ member)) <| by
        intro isOpen
        cases bounds with
        | nil => cases isOpen
        | cons next bounds => exact apart (by simpa using isOpen)
      rw [List.flatMap_cons, List.append_assoc, Parameter.boundText, List.cons_append,
        scan_mark _ .boundStart ':' _ rfl rfl]
      cases bound with
      | none =>
          have other : (bounds.flatMap Parameter.boundText ++ rest).head?.any opensBound = false := by
            cases bounds with
            | nil => exact apart rfl
            | cons next bounds => rfl
          rw [Option.elim_none, List.nil_append, scan_bound_start_other _ other, later]
          simp [Parameter.boundTokens, Function.comp_def]
      | some t =>
          obtain ⟨reference, spelledType⟩ := spelled _ List.mem_cons_self t rfl
          obtain ⟨c, more, begins, opens⟩ := t.text_reference reference
          have enters := scan_bound_start_type c (more ++ (bounds.flatMap Parameter.boundText ++ rest)) opens
          rw [← List.cons_append, ← begins, t.scan_text .bound _ spelledType, later] at enters
          rw [Option.elim_some, enters]
          simp [Parameter.boundTokens, Function.comp_def]

theorem Parameter.spelled_iff (p : Parameter) : p.spelled stops = true ↔
    (∀ c ∈ p.name, c ≠ ':') ∧ p.name.head? ≠ some '>' ∧ p.bounds ≠ [] ∧
      ∀ bound ∈ p.bounds, ∀ t ∈ bound, t.isReference = true ∧ t.spelled stops = true := by
  simp [Parameter.spelled, and_assoc, Option.all_eq_true]

theorem Parameter.bounds_cons (p : Parameter) (spelled : p.spelled stops = true) :
    ∃ more, p.bounds.flatMap boundText = ':' :: more := by
  obtain ⟨_, _, bounded, _⟩ := (p.spelled_iff stops).mp spelled
  cases bounds : p.bounds with
  | nil => exact absurd bounds bounded
  | cons bound bounds => exact ⟨_, rfl⟩

theorem Parameter.scan_text (p : Parameter) (rest : List Char) (spelled : p.spelled endsVariable = true)
    (apart : p.endsOpen = true → rest.head?.any opensBound = false) :
    scan (.next .bound) [] (p.text ++ rest) = (scan (.next .bound) [] rest).map (p.tokens ++ ·) := by
  obtain ⟨plain, opens, _, types⟩ := (p.spelled_iff endsVariable).mp spelled
  obtain ⟨more, begins⟩ := p.bounds_cons endsVariable spelled
  have named := scan_parameter_name p.name (more ++ rest) plain opens
  rw [← List.cons_append, ← begins, scan_bounds p.bounds rest types apart] at named
  rw [text, List.append_assoc, named]
  simp [tokens, Function.comp_def]

theorem Parameter.opens_bound_head (p : Parameter) (rest : List Char) (spelled : p.spelled stops = true) :
    (p.text ++ rest).head?.any opensBound = p.name.head?.any opensBound := by
  obtain ⟨more, begins⟩ := p.bounds_cons stops spelled
  rw [text, begins]
  cases p.name <;> rfl

theorem scan_parameters (ps : List Parameter) (rest : List Char)
    (spelled : ∀ p ∈ ps, p.spelled endsVariable = true)
    (apart : ps.IsChain fun p q => p.endsOpen = true → q.name.head?.any opensBound = false) :
    scan (.next .bound) [] (ps.flatMap Parameter.text ++ '>' :: rest) =
      (scan (.next .top) [] rest).map ((ps.flatMap Parameter.tokens ++ [.mark '>']) ++ ·) := by
  induction ps with
  | nil => exact scan_mark _ _ '>' rest rfl rfl
  | cons p ps ih =>
      obtain ⟨next, apartRest⟩ := List.isChain_cons.mp apart
      have spelledRest : ∀ q ∈ ps, q.spelled endsVariable = true := fun q member =>
        spelled q (List.mem_cons_of_mem _ member)
      have follows : p.endsOpen = true →
          (ps.flatMap Parameter.text ++ '>' :: rest).head?.any opensBound = false := by
        intro isOpen
        cases ps with
        | nil => rfl
        | cons q qs =>
            rw [List.flatMap_cons, List.append_assoc,
              q.opens_bound_head endsVariable _ (spelledRest q List.mem_cons_self)]
            exact next q rfl isOpen
      rw [List.flatMap_cons, List.append_assoc, p.scan_text _ (spelled p List.mem_cons_self) follows,
        ih spelledRest apartRest]
      simp [Function.comp_def]

theorem scan_items (items : List Item) (spelled : ∀ i ∈ items, i.spelled endsVariable = true) :
    scan (.next .top) [] (items.flatMap Item.text) = some (items.flatMap Item.tokens) := by
  induction items with
  | nil => rfl
  | cons i items ih =>
      have later := ih fun j member => spelled j (List.mem_cons_of_mem _ member)
      have this := spelled i List.mem_cons_self
      rw [List.flatMap_cons, List.flatMap_cons]
      cases i with
      | mark c =>
          have isMark : modeStep (.next .top) c = some (.next .top) := if_pos this
          rw [Item.text, List.singleton_append, scan_mark _ _ c _ isMark rfl, later]
          rfl
      | type t =>
          obtain ⟨c, more, begins, isType⟩ := t.text_cons endsVariable .top this
          have enters := scan_next_type .top c (more ++ items.flatMap Item.text) (by simp) isType
          rw [← List.cons_append, ← begins, t.scan_text .top _ this, later] at enters
          exact enters

theorem scan_start (text : List Char) (tokens : List Token) (reads : scan (.next .top) [] text = some tokens) :
    tokens? text = some tokens := by
  cases text with
  | nil => exact reads
  | cons c text =>
      have other : c ≠ '<' := by
        rintro rfl
        cases reads
      rw [tokens?, scan_congr .start (.next .top) c text (if_neg other) rfl]
      exact reads

theorem Tree.tokens?_text (t : Tree) (readable : t.Readable) : tokens? t.text = some t.tokens := by
  obtain ⟨spelled, apart, spelledItems⟩ := readable
  have items := scan_items t.items spelledItems
  cases parameters : t.parameters with
  | none =>
      rw [text, tokens, parameters]
      exact scan_start _ _ items
  | some ps =>
      rw [parameters] at spelled apart
      rw [text, tokens, parameters, Option.elim_some, Option.elim_some, List.cons_append, List.append_assoc,
        List.singleton_append, tokens?, scan_mark .start (.next .bound) '<' _ rfl rfl,
        scan_parameters ps _ spelled apart, items]
      rfl

end Reading

end Signature

end JvmEdit
