import JvmEdit.Edit.Renaming
set_option autoImplicit false

namespace JvmEdit

-- A class name as class files write it, without the characters that end a name in a descriptor.
def InternalName (name : String) : Prop :=
  name ≠ "" ∧ ∀ c ∈ name.toList, c ≠ '.' ∧ c ≠ ';' ∧ c ≠ '[' ∧ c ≠ '<' ∧ c ≠ '>'

instance InternalName.decidable (name : String) : Decidable (InternalName name) :=
  @instDecidableAnd _ _ inferInstance (List.decidableBAll _ name.toList)

theorem InternalName.ends_name {name : String} (legal : InternalName name) :
    ∀ c ∈ name.toList, Signature.endsName c = false := by
  intro c member
  obtain ⟨noDot, no_semicolon, _, noAngle, _⟩ := legal.2 c member
  simp [Signature.endsName, noDot, no_semicolon, noAngle]

theorem InternalName.no_bracket {name : String} (legal : InternalName name) :
    name.toList.head? ≠ some '[' := by
  intro bracket
  exact (legal.2 '[' (List.mem_of_mem_head? bracket)).2.2.1 rfl

namespace Signature

theorem scan_reversed (mode : Mode) (reversed : List Token) (text : List Char) :
    scan mode reversed text = (scan mode [] text).map (reversed.reverse ++ ·) := by
  induction text generalizing mode reversed with
  | nil =>
      simp only [scan]
      split <;> simp
  | cons c text ih =>
      simp only [scan]
      cases modeStep mode c with
      | none => rfl
      | some next =>
          dsimp only
          rw [ih next ((emitted mode c).reverse ++ reversed), ih next ((emitted mode c).reverse ++ [])]
          simp [Function.comp_def]

theorem scan_class_name (place : Place) (name reversed : List Char) (stop : Char) (rest : List Char)
    (plain : ∀ c ∈ name, endsName c = false) (ends : endsName stop = true) :
    scan (.className place reversed) [] (name ++ stop :: rest) =
      (tailStep place stop).bind fun mode => (scan mode [] rest).map
        ([.className (reversed.reverse ++ name), .mark stop] ++ ·) := by
  induction name generalizing reversed with
  | nil =>
      rw [List.nil_append, scan, modeStep, if_pos ends]
      cases tailStep place stop with
      | none => rfl
      | some mode =>
          dsimp only
          rw [scan_reversed]
          simp [emitted, ends]
  | cons c name ih =>
      have inName : endsName c = false := plain c List.mem_cons_self
      rw [List.cons_append, scan, modeStep, if_neg (by simp [inName])]
      dsimp only
      have quiet : emitted (.className place reversed) c = [] := by simp [emitted, inName]
      rw [quiet]
      refine (ih (c :: reversed) fun d member => plain d (List.mem_cons_of_mem _ member)).trans ?_
      simp

theorem scan_brackets (depth : Nat) (text : List Char) :
    scan (.type .top) [] (List.replicate depth '[' ++ text) =
      (scan (.type .top) [] text).map (List.replicate depth (.mark '[') ++ ·) := by
  induction depth with
  | zero => simp
  | succ depth ih =>
      rw [List.replicate_succ, List.cons_append, scan]
      have step : modeStep (.type .top) '[' = some (.type .top) := rfl
      rw [step]
      dsimp only
      rw [scan_reversed, ih]
      simp [emitted, Function.comp_def, List.replicate_succ]

-- The array descriptor of a class, with `depth + 1` brackets.
def arrayText (depth : Nat) (name : List Char) : List Char :=
  List.replicate (depth + 1) '[' ++ 'L' :: (name ++ [';'])

theorem tokens?_array (depth : Nat) (name : List Char) (plain : ∀ c ∈ name, endsName c = false) :
    tokens? (arrayText depth name) =
      some (List.replicate (depth + 1) (.mark '[') ++ [.mark 'L', .className name, .mark ';']) := by
  have first : modeStep .start '[' = some (.type .top) := rfl
  have second : modeStep (.type .top) 'L' = some (.className .top []) := rfl
  rw [tokens?, arrayText, List.replicate_succ, List.cons_append, scan, first]
  dsimp only
  rw [scan_reversed, scan_brackets, scan, second]
  dsimp only
  have ending : tailStep .top ';' = some (.next .top) := rfl
  rw [scan_reversed, scan_class_name .top name [] ';' [] plain rfl, ending]
  simp [scan, accepts, emitted, List.replicate_succ]

theorem rename?_array (depth : Nat) (name : List Char) (old new text : String)
    (plain : ∀ c ∈ name, endsName c = false) (isArray : text.toList = arrayText depth name) :
    rename? text old new =
      if name = old.toList then some (String.ofList (arrayText depth new.toList)) else none := by
  rw [rename?, isArray, tokens?_array depth name plain, Option.bind_some]
  have brackets : ∀ k, render ((List.replicate k (.mark '[')).map
      (Token.rename old.toList new.toList)) = List.replicate k '[' := by
    intro k
    induction k with
    | zero => rfl
    | succ k ih => simpa [List.replicate_succ, render, Token.rename, Token.render] using ih
  have mentions : (List.replicate (depth + 1) (Token.mark '[') ++
      [Token.mark 'L', Token.className name, Token.mark ';']).contains (.className old.toList) = true ↔
        name = old.toList := by
    simp [eq_comm]
  by_cases same : name = old.toList
  · rw [if_pos (mentions.mpr same), if_pos same, List.map_append, render, List.flatMap_append]
    have front := brackets (depth + 1)
    rw [render] at front
    rw [front]
    simp [arrayText, Token.rename, Token.render, same]
  · rw [if_neg (fun found => same (mentions.mp found)), if_neg same]

theorem rename?_bracket (text old new renamed : String) (bracket : text.toList.head? = some '[')
    (ok : rename? text old new = some renamed) : renamed.toList.head? = some '[' := by
  obtain ⟨tokens, read, rest⟩ := Option.bind_eq_some_iff.mp ok
  split at rest
  · cases rest
    obtain ⟨chars, isText⟩ : ∃ chars, text.toList = '[' :: chars := by
      cases isText : text.toList with
      | nil => simp [isText] at bracket
      | cons c chars =>
          rw [isText] at bracket
          cases bracket
          exact ⟨chars, rfl⟩
    have first : modeStep .start '[' = some (.type .top) := rfl
    rw [isText, tokens?, scan, first] at read
    dsimp only at read
    rw [scan_reversed] at read
    obtain ⟨later, _, rfl⟩ := Option.map_eq_some_iff.mp read
    simp [emitted, render, Token.rename, Token.render]
  · cases rest

theorem rename?_self (text name renamed : String) (ok : rename? text name name = some renamed) :
    renamed = text := by
  obtain ⟨tokens, read, rest⟩ := Option.bind_eq_some_iff.mp ok
  have same : tokens.map (Token.rename name.toList name.toList) = tokens := by
    refine (List.map_congr_left fun token _ => ?_).trans (List.map_id tokens)
    cases token with
    | mark c => rfl
    | className n =>
        by_cases isName : n = name.toList
        · simp [Token.rename, isName]
        · simp [Token.rename, isName]
  split at rest
  · cases rest
    rw [same, render_tokens? _ _ read, String.ofList_toList]
  · cases rest

end Signature

namespace ClassName

theorem element?_array (text name : String) (bracket : text.toList.head? = some '[')
    (named : element? text = some name) :
    ∃ depth, text.toList = Signature.arrayText depth name.toList := by
  simp only [element?] at named
  split at named
  · rename_i rest isText
    have brackets := List.takeWhile_append_dropWhile (p := (· = '[')) (l := rest)
    split at named
    · rename_i inner isRest
      split at named
      · rename_i last
        cases named
        have parts : inner = inner.dropLast ++ [';'] := by
          obtain ⟨front, rfl⟩ := List.getLast?_eq_some_iff.mp last
          simp
        have leading : rest.takeWhile (· = '[') =
            List.replicate (rest.takeWhile (· = '[')).length '[' := by
          rw [List.eq_replicate_iff]
          exact ⟨rfl, fun c member => by
            have all := List.all_takeWhile (p := (· = '[')) (l := rest)
            simpa using List.all_eq_true.mp all c member⟩
        refine ⟨(rest.takeWhile (· = '[')).length, ?_⟩
        rw [isText, Signature.arrayText, List.replicate_succ, ← leading, String.toList_ofList, ← parts,
          List.cons_append, ← isRest, brackets]
      · cases named
    · cases named
  · rename_i plain
    cases chars : text.toList with
    | nil => simp [chars] at bracket
    | cons c chars' =>
        rw [chars] at bracket
        cases bracket
        exact absurd chars (plain chars')

theorem element?_plain (text : String) (plain : text.toList.head? ≠ some '[') :
    element? text = some text := by
  simp only [element?]
  split
  · rename_i rest isText
    rw [isText] at plain
    exact absurd rfl plain
  · rfl

theorem element?_array_text (depth : Nat) (name : String) :
    element? (String.ofList (Signature.arrayText depth name.toList)) = some name := by
  have skipped : ∀ (k : Nat) (rest : List Char), ('L' :: rest).head? = some 'L' →
      (List.replicate k '[' ++ 'L' :: rest).dropWhile (· = '[') = 'L' :: rest := by
    intro k rest _
    induction k with
    | zero => rfl
    | succ k ih => simp [List.replicate_succ]
  simp only [element?, String.toList_ofList, Signature.arrayText, List.replicate_succ,
    List.cons_append]
  rw [skipped depth _ rfl]
  simp

end ClassName

namespace Renaming

variable (r : Renaming)

-- The name of a class once the renaming is done.
def name (n : String) : String := if n = r.old then r.new else n

theorem internal_plain (text : String) (plain : text.toList.head? ≠ some '[') :
    r.internal text = r.name text := by
  simp only [internal, ClassName.rename?, name]
  by_cases same : text = r.old
  · rw [if_pos same, if_pos same]
    rfl
  · rw [if_neg same, if_neg same, if_neg plain]
    rfl

theorem internal_bracket (text : String) (differ : text ≠ r.old)
    (bracket : text.toList.head? = some '[') : (r.internal text).toList.head? = some '[' := by
  simp only [internal, ClassName.rename?]
  rw [if_neg differ, if_pos bracket]
  cases renamed : Signature.rename? text r.old r.new with
  | none => exact bracket
  | some text' => exact Signature.rename?_bracket text r.old r.new text' bracket renamed

theorem element?_internal (text n : String) (legal : InternalName n) (legalOld : InternalName r.old)
    (legalNew : InternalName r.new) (named : ClassName.element? text = some n) :
    ClassName.element? (r.internal text) = some (r.name n) := by
  by_cases bracket : text.toList.head? = some '['
  · obtain ⟨depth, isArray⟩ := ClassName.element?_array text n bracket named
    have differ : text ≠ r.old := fun same => legalOld.no_bracket (same ▸ bracket)
    have renamed := Signature.rename?_array depth n.toList r.old r.new text legal.ends_name isArray
    simp only [internal, ClassName.rename?, name]
    rw [if_neg differ, if_pos bracket, renamed]
    by_cases same : n = r.old
    · rw [if_pos (congrArg String.toList same), if_pos same, Option.getD_some]
      exact ClassName.element?_array_text depth r.new
    · rw [if_neg (fun eq => same (String.toList_inj.mp eq)), if_neg same]
      exact named
  · rw [ClassName.element?_plain text bracket] at named
    cases named
    rw [internal_plain r text bracket]
    apply ClassName.element?_plain
    simp only [name]
    split
    · exact legalNew.no_bracket
    · exact bracket

theorem descriptor_self (text n : String) : (⟨n, n⟩ : Renaming).descriptor text = text := by
  simp only [descriptor]
  cases renamed : Signature.rename? text n n with
  | none => rfl
  | some text' => exact Signature.rename?_self text n text' renamed

theorem internal_self (text n : String) : (⟨n, n⟩ : Renaming).internal text = text := by
  simp only [internal, ClassName.rename?]
  split
  · rename_i same
    exact same.symm
  · split
    · exact descriptor_self text n
    · rfl

theorem name_self (text n : String) : (⟨n, n⟩ : Renaming).name text = text := by
  simp only [name]
  split
  · rename_i same
    exact same.symm
  · rfl

theorem referenced_class?_operand (o : Operand) :
    (r.operand o).referencedClass? = o.referencedClass?.map r.internal := by
  cases o with
  | constant value => cases value <;> rfl
  | _ => rfl

theorem operand_self (n : String) (o : Operand) : (⟨n, n⟩ : Renaming).operand o = o := by
  have constants : ∀ value, (⟨n, n⟩ : Renaming).constant value = value := by
    intro value
    cases value <;> simp [constant, internal_self, descriptor_self]
  cases o <;> simp [operand, internal_self, descriptor_self, constants]

theorem method_text_self (n : String) (m : Method) : (⟨n, n⟩ : Renaming).methodText m = m := by
  have texts : (⟨n, n⟩ : Renaming).descriptor = id := funext fun text => descriptor_self text n
  have names : (⟨n, n⟩ : Renaming).internal = id := funext fun text => internal_self text n
  have operands : (⟨n, n⟩ : Renaming).operand = id := funext (operand_self n)
  have annotations : Renaming.annotationText ⟨n, n⟩ = id := funext fun a => by simp [annotationText, texts]
  have ranges : (⟨n, n⟩ : Renaming).tryRange = id := funext fun t => by simp [tryRange, names]
  have locals : (⟨n, n⟩ : Renaming).localVariable = id :=
    funext fun v => by simp [localVariable, texts]
  have instructions : (⟨n, n⟩ : Renaming).instruction = id :=
    funext fun i => by simp [instruction, operands]
  simp [methodText, Stream.map, texts, names, annotations, ranges, locals, instructions]

end Renaming

namespace Signature

-- The mode in which the token that a mode is inside of begins.
def Mode.begun : Mode → Mode
  | .className place _ => .className place []
  | mode => mode

theorem Mode.begun_of_held (mode : Mode) (nothing : held mode = []) : mode.begun = mode := by
  cases mode with
  | className place reversed =>
      have empty : reversed = [] := List.reverse_eq_nil_iff.mp nothing
      rw [begun, empty]
  | _ => rfl

theorem scan_cons (mode mode' : Mode) (c : Char) (text : List Char)
    (stepped : modeStep mode c = some mode') :
    scan mode [] (c :: text) = (scan mode' [] text).map (emitted mode c ++ ·) := by
  rw [scan, stepped]
  dsimp only
  rw [scan_reversed]
  simp

theorem scan_cons_some (mode : Mode) (c : Char) (text : List Char) (tokens : List Token)
    (read : scan mode [] (c :: text) = some tokens) :
    ∃ mode' later, modeStep mode c = some mode' ∧ scan mode' [] text = some later ∧
      tokens = emitted mode c ++ later := by
  cases stepped : modeStep mode c with
  | none => simp [scan, stepped] at read
  | some mode' =>
      rw [scan_cons mode mode' c text stepped] at read
      obtain ⟨later, readLater, isTokens⟩ := Option.map_eq_some_iff.mp read
      exact ⟨mode', later, rfl, readLater, isTokens.symm⟩

theorem mark_step (mode mode' : Mode) (c : Char) (single : emitted mode c = [.mark c])
    (nothing : held mode = []) (stepped : modeStep mode c = some mode') : held mode' = [] := by
  have piece := render_emitted mode mode' c stepped
  rw [single, nothing] at piece
  simpa [render, Token.render] using piece

theorem held_step (mode mode' : Mode) (c : Char) (inName : ∀ d ∈ held mode, endsName d = false)
    (stepped : modeStep mode c = some mode') : ∀ d ∈ held mode', endsName d = false := by
  cases mode with
  | className place reversed =>
      by_cases ends : endsName c = true
      · have tail : tailStep place c = some mode' := by simpa [modeStep, ends] using stepped
        simp [held_tail_step place c mode' tail]
      · have next : mode' = .className place (c :: reversed) := by
          simpa [modeStep, ends, eq_comm] using stepped
        subst next
        intro d member
        rw [held, List.reverse_cons, List.mem_append, List.mem_singleton] at member
        rcases member with earlier | isLast
        · exact inName d earlier
        · simpa [isLast] using ends
  | _ => simp [mark_step _ mode' c rfl rfl stepped]

theorem scan_rename (old new : List Char) (plain : ∀ c ∈ new, endsName c = false) (mode : Mode)
    (text : List Char) (tokens : List Token) (inName : ∀ c ∈ held mode, endsName c = false)
    (read : scan mode [] text = some tokens) :
    scan mode.begun [] (render (tokens.map (Token.rename old new))) =
      some (tokens.map (Token.rename old new)) := by
  induction text generalizing mode tokens with
  | nil =>
      obtain ⟨ended, isEmpty⟩ := Option.ite_none_right_eq_some.mp read
      have outside : mode.begun = mode := by
        cases mode with
        | className => simp [accepts] at ended
        | _ => rfl
      obtain rfl : [] = tokens := by simpa using isEmpty
      rw [outside]
      exact read
  | cons c text ih =>
      obtain ⟨mode', later, stepped, readLater, rfl⟩ := scan_cons_some mode c text tokens read
      have rest := ih mode' later (held_step mode mode' c inName stepped) readLater
      cases mode with
      | className place reversed =>
          by_cases ends : endsName c = true
          · have tail : tailStep place c = some mode' := by simpa [modeStep, ends] using stepped
            rw [mode'.begun_of_held (held_tail_step place c mode' tail)] at rest
            have ended : ∀ d ∈ (if reversed.reverse = old then new else reversed.reverse),
                endsName d = false := by
              split
              · exact plain
              · exact inName
            have reread := scan_class_name place _ [] c (render (later.map (Token.rename old new)))
              ended ends
            rw [tail, Option.bind_some, rest] at reread
            simpa [emitted, ends, render, Token.rename, Token.render, Mode.begun] using reread
          · have next : mode' = .className place (c :: reversed) := by
              simpa [modeStep, ends, eq_comm] using stepped
            have quiet : emitted (.className place reversed) c = [] := by simp [emitted, ends]
            subst next
            rw [quiet]
            exact rest
      | _ =>
          rw [mode'.begun_of_held (mark_step _ mode' c rfl rfl stepped)] at rest
          have reread := scan_cons _ mode' c (render (later.map (Token.rename old new))) stepped
          rw [rest] at reread
          simpa [emitted, render, Token.rename, Token.render, Mode.begun] using reread

theorem tokens?_rename (old new : List Char) (plain : ∀ c ∈ new, endsName c = false)
    (text : List Char) (tokens : List Token) (read : tokens? text = some tokens) :
    tokens? (render (tokens.map (Token.rename old new))) =
      some (tokens.map (Token.rename old new)) :=
  scan_rename old new plain .start text tokens (by simp [held]) read

-- A class name stands in a descriptor or signature. A text that is neither names no class.
def Names (text name : String) : Prop :=
  ∃ tokens, tokens? text.toList = some tokens ∧ .className name.toList ∈ tokens

instance Names.decidable (text name : String) : Decidable (Names text name) :=
  decidable_of_iff ((tokens? text.toList).any (·.contains (.className name.toList)) = true) <| by
    simp [Names, Option.any_eq_true]

theorem rename?_of_names (text old new : String) (tokens : List Token)
    (read : tokens? text.toList = some tokens) (named : .className old.toList ∈ tokens) :
    rename? text old new =
      some (String.ofList (render (tokens.map (Token.rename old.toList new.toList)))) := by
  rw [rename?, read, Option.bind_some, if_pos (by simpa using named)]

theorem rename?_unnamed (text old new : String) (absent : ¬Names text old) :
    rename? text old new = none := by
  rw [rename?]
  cases read : tokens? text.toList with
  | none => rfl
  | some tokens =>
      have unnamed : Token.className old.toList ∉ tokens := fun member => absent ⟨tokens, read, member⟩
      rw [Option.bind_some, if_neg (by simpa using unnamed)]

theorem rename_back (old new : List Char) (tokens : List Token)
    (absent : Token.className new ∉ tokens) :
    (tokens.map (Token.rename old new)).map (Token.rename new old) = tokens := by
  rw [List.map_map]
  refine (List.map_congr_left fun token member => ?_).trans (List.map_id tokens)
  cases token with
  | mark c => rfl
  | className name =>
      have differ : name ≠ new := fun same => absent (same ▸ member)
      by_cases isOld : name = old <;> simp [Token.rename, isOld, differ]

theorem rename?_back (text old new renamed : String)
    (plain : ∀ c ∈ new.toList, endsName c = false) (absent : ¬Names text new)
    (ok : rename? text old new = some renamed) : rename? renamed new old = some text := by
  obtain ⟨tokens, read, rest⟩ := Option.bind_eq_some_iff.mp ok
  split at rest
  · rename_i named
    cases rest
    have unnamed : Token.className new.toList ∉ tokens := fun member => absent ⟨tokens, read, member⟩
    have reread := tokens?_rename old.toList new.toList plain text.toList tokens read
    have newNamed : Token.className new.toList ∈ tokens.map (Token.rename old.toList new.toList) :=
      List.mem_map.mpr ⟨.className old.toList, by simpa using named, by simp [Token.rename]⟩
    rw [rename?_of_names _ new old _ (by rw [String.toList_ofList]; exact reread) newNamed,
      rename_back _ _ tokens unnamed, render_tokens? _ _ read, String.ofList_toList]
  · cases rest

end Signature

-- A class name is that of a type text: the text itself, or the class of an array descriptor.
def ClassName.Names (text name : String) : Prop :=
  text = name ∨ text.toList.head? = some '[' ∧ Signature.Names text name

instance ClassName.Names.decidable (text name : String) : Decidable (ClassName.Names text name) :=
  inferInstanceAs (Decidable (_ ∨ _ ∧ _))

namespace Renaming

def back (r : Renaming) : Renaming := ⟨r.new, r.old⟩

section Back

variable (r : Renaming) (legal : InternalName r.new)

include legal

theorem descriptor_back (text : String) (absent : ¬Signature.Names text r.new) :
    r.back.descriptor (r.descriptor text) = text := by
  cases renamed : Signature.rename? text r.old r.new with
  | none => simp [descriptor, back, renamed, Signature.rename?_unnamed text r.new r.old absent]
  | some text' =>
      have restored := Signature.rename?_back text r.old r.new text' legal.ends_name absent renamed
      simp [descriptor, back, renamed, restored]

theorem internal_back (text : String) (absent : ¬ClassName.Names text r.new) :
    r.back.internal (r.internal text) = text := by
  have differ : text ≠ r.new := fun same => absent (Or.inl same)
  by_cases isOld : text = r.old
  · simp [internal, back, ClassName.rename?, isOld]
  · by_cases bracket : text.toList.head? = some '['
    · have bracketed := r.internal_bracket text isOld bracket
      have isNotNew : r.internal text ≠ r.new := fun same => legal.no_bracket (same ▸ bracketed)
      have inside : ∀ s : Renaming, ∀ name : String, name ≠ s.old → name.toList.head? = some '[' →
          s.internal name = s.descriptor name := by
        intro s name apart open'
        simp only [internal, ClassName.rename?, descriptor]
        rw [if_neg apart, if_pos open']
      rw [inside r.back _ isNotNew bracketed, inside r text isOld bracket]
      exact descriptor_back r legal text fun named => absent (Or.inr ⟨bracket, named⟩)
    · rw [internal_plain r text bracket, name, if_neg isOld, internal_plain r.back text bracket]
      exact if_neg differ

end Back

end Renaming

end JvmEdit
