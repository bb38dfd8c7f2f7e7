import JvmEdit.Proofs.Descriptor.MethodType
set_option autoImplicit false

namespace JvmEdit

namespace Descriptor

-- A reader that takes exactly the grammar, with as many dimensions as an array can have.
section Reader

def readName? : List Char → Option (List Char × List Char)
  | [] => none
  | c :: text =>
      if c = ';' then some ([], text) else (readName? text).map fun (name, rest) => (c :: name, rest)

def readType? : List Char → Option (FieldType × List Char)
  | [] => none
  | c :: text =>
      if c = '[' then (readType? text).map fun (element, rest) => (.array element, rest)
      else if c = 'L' then
        (readName? text).bind fun (name, rest) =>
          if IsClassName name then some (.object name, rest) else none
      else if c ∈ "BCDFIJSZ".toList then some (.base c, text)
      else none

-- Types up to the closing parenthesis, fewer than `fuel` of them.
def readParameters? : Nat → List Char → Option (List FieldType × List Char)
  | 0, _ => none
  | fuel + 1, text =>
      if text.head? = some ')' then some ([], text.tail)
      else (readType? text).bind fun (type, rest) =>
        (readParameters? fuel rest).map fun (types, rest) => (type :: types, rest)

def readResult? (text : List Char) : Option (Option FieldType) :=
  if text = ['V'] then some none
  else (readType? text).bind fun (type, rest) => if rest = [] then some (some type) else none

def readMethodType? (text : List Char) : Option MethodType :=
  if text.head? = some '(' then
    (readParameters? text.length text.tail).bind fun (parameters, rest) =>
      (readResult? rest).map fun result => ⟨parameters, result⟩
  else none

def strictTypes? (d : String) : Option (List ValueType × ValueType) :=
  ((readMethodType? d.toList).filter (·.dimensions ≤ 255)).map MethodType.values

theorem read_name?_iff (text name rest : List Char) :
    readName? text = some (name, rest) ↔ ';' ∉ name ∧ name ++ ';' :: rest = text := by
  induction text generalizing name with
  | nil => simp [readName?]
  | cons c text ih =>
      by_cases stop : c = ';'
      · subst stop
        cases name with
        | nil => simp [readName?, eq_comm]
        | cons d name => simp [readName?]; grind
      · cases name with
        | nil => simp [readName?, stop]; grind
        | cons d name => simp [readName?, stop, ih]; grind

theorem read_type?_text (t : FieldType) (legal : t.Legal) (rest : List Char) :
    readType? (t.text ++ rest) = some (t, rest) := by
  induction t with
  | base c =>
      have isBase : c ∈ "BCDFIJSZ".toList := legal
      have no_bracket : c ≠ '[' := fun same => absurd (same ▸ isBase) (by decide)
      have noName : c ≠ 'L' := fun same => absurd (same ▸ isBase) (by decide)
      rw [FieldType.text, List.singleton_append, readType?, if_neg no_bracket, if_neg noName, if_pos isBase]
  | object name =>
      have cut := (read_name?_iff _ name rest).mpr ⟨IsClassName.no_semicolon legal, rfl⟩
      have isName : IsClassName name := legal
      simp [FieldType.text, readType?, cut, isName]
  | array element ih =>
      have inner := ih legal
      simp [FieldType.text, readType?, inner]

theorem text_of_read_type? (text rest : List Char) (t : FieldType)
    (read : readType? text = some (t, rest)) : t.Legal ∧ t.text ++ rest = text := by
  induction text generalizing t with
  | nil => cases read
  | cons c text ih =>
      simp only [readType?] at read
      split at read
      · rename_i bracket
        obtain ⟨⟨element, rest'⟩, inner, same⟩ := Option.map_eq_some_iff.mp read
        cases same
        obtain ⟨legal, isText⟩ := ih element inner
        exact ⟨legal, by rw [FieldType.text, List.cons_append, isText, bracket]⟩
      · split at read
        · rename_i isObject
          obtain ⟨⟨name, rest'⟩, cut, named⟩ := Option.bind_eq_some_iff.mp read
          obtain ⟨isName, same⟩ := Option.ite_none_right_eq_some.mp named
          cases same
          obtain ⟨_, rfl⟩ := (read_name?_iff text name rest').mp cut
          exact ⟨isName, by simp [FieldType.text, isObject]⟩
        · obtain ⟨isBase, same⟩ := Option.ite_none_right_eq_some.mp read
          cases same
          exact ⟨isBase, rfl⟩

theorem FieldType.head_text (t : FieldType) (legal : t.Legal) (text : List Char) :
    (t.text ++ text).head? ≠ some ')' ∧ (t.text ++ text).head? ≠ some 'V' := by
  cases t with
  | base c =>
      have isBase : c ∈ "BCDFIJSZ".toList := legal
      constructor
      · intro head
        cases head
        exact absurd isBase (by decide)
      · intro head
        cases head
        exact absurd isBase (by decide)
  | object name => simp [FieldType.text]
  | array element => simp [FieldType.text]

theorem read_parameters?_text (types : List FieldType) (legal : ∀ type ∈ types, type.Legal)
    (rest : List Char) (fuel : Nat) (enough : types.length < fuel) :
    readParameters? fuel (types.flatMap FieldType.text ++ ')' :: rest) = some (types, rest) := by
  induction types generalizing fuel with
  | nil =>
      obtain ⟨fuel, rfl⟩ := Nat.exists_eq_add_one_of_ne_zero (Nat.ne_of_gt enough)
      rfl
  | cons type types ih =>
      obtain ⟨legalHead, legalTail⟩ := List.forall_mem_cons.mp legal
      obtain ⟨fuel, rfl⟩ := Nat.exists_eq_add_one_of_ne_zero (Nat.ne_of_gt (Nat.zero_lt_of_lt enough))
      have later := ih legalTail fuel (Nat.lt_of_succ_lt_succ enough)
      have opened := (FieldType.head_text type legalHead (types.flatMap FieldType.text ++ ')' :: rest)).1
      rw [List.flatMap_cons, List.append_assoc, readParameters?, if_neg opened,
        read_type?_text type legalHead, Option.bind_some]
      dsimp only
      rw [later]
      rfl

theorem text_of_read_parameters? (fuel : Nat) (text rest : List Char) (types : List FieldType)
    (read : readParameters? fuel text = some (types, rest)) :
    (∀ type ∈ types, type.Legal) ∧ types.flatMap FieldType.text ++ ')' :: rest = text := by
  induction fuel generalizing text types with
  | zero => cases read
  | succ fuel ih =>
      simp only [readParameters?] at read
      split at read
      · rename_i closed
        cases read
        obtain ⟨rest, rfl⟩ := List.head?_eq_some_iff.mp closed
        exact ⟨by simp, rfl⟩
      · obtain ⟨⟨type, rest'⟩, isType, later⟩ := Option.bind_eq_some_iff.mp read
        obtain ⟨⟨types', rest''⟩, areTypes, same⟩ := Option.map_eq_some_iff.mp later
        cases same
        obtain ⟨legal, isText⟩ := text_of_read_type? text rest' type isType
        obtain ⟨legalTail, isRest⟩ := ih rest' types' areTypes
        refine ⟨List.forall_mem_cons.mpr ⟨legal, legalTail⟩, ?_⟩
        rw [List.flatMap_cons, List.append_assoc, isRest, isText]

theorem read_result?_text (result : Option FieldType) (legal : ∀ type ∈ result, type.Legal) :
    readResult? (MethodType.resultText result) = some result := by
  cases result with
  | none => rfl
  | some type =>
      have isLegal := legal type rfl
      have notVoid : type.text ≠ ['V'] := by
        intro void
        have head := (type.head_text isLegal []).2
        rw [List.append_nil, void] at head
        exact head rfl
      have whole := read_type?_text type isLegal []
      rw [List.append_nil] at whole
      rw [MethodType.resultText, readResult?, if_neg notVoid, whole]
      rfl

theorem text_of_read_result? (text : List Char) (result : Option FieldType)
    (read : readResult? text = some result) :
    (∀ type ∈ result, type.Legal) ∧ MethodType.resultText result = text := by
  simp only [readResult?] at read
  split at read
  · rename_i void
    cases read
    exact ⟨by simp, void.symm⟩
  · obtain ⟨⟨type, rest⟩, isType, ended⟩ := Option.bind_eq_some_iff.mp read
    obtain ⟨rfl, same⟩ := Option.ite_none_right_eq_some.mp ended
    cases same
    obtain ⟨legal, isText⟩ := text_of_read_type? text [] type isType
    rw [List.append_nil] at isText
    refine ⟨fun other member => ?_, isText⟩
    cases member
    exact legal

theorem length_flat_map_text (types : List FieldType) :
    types.length ≤ (types.flatMap FieldType.text).length := by
  induction types with
  | nil => simp
  | cons type types ih =>
      have some : 0 < type.text.length := by cases type <;> simp [FieldType.text]
      rw [List.flatMap_cons, List.length_append, List.length_cons]
      omega

theorem read_method_type?_iff (text : List Char) (t : MethodType) :
    readMethodType? text = some t ↔ t.Legal ∧ t.text = text := by
  constructor
  · intro read
    obtain ⟨opened, rest⟩ := Option.ite_none_right_eq_some.mp read
    obtain ⟨text, rfl⟩ := List.head?_eq_some_iff.mp opened
    obtain ⟨⟨parameters, closed⟩, areParameters, ended⟩ := Option.bind_eq_some_iff.mp rest
    obtain ⟨result, isResult, rfl⟩ := Option.map_eq_some_iff.mp ended
    obtain ⟨legal, isText⟩ := text_of_read_parameters? _ _ _ _ areParameters
    obtain ⟨legalResult, isClosed⟩ := text_of_read_result? closed result isResult
    refine ⟨⟨legal, legalResult⟩, ?_⟩
    rw [MethodType.text, isClosed, isText]
    rfl
  · rintro ⟨legal, rfl⟩
    have enough : t.parameters.length < t.text.length := by
      have counted := length_flat_map_text t.parameters
      simp only [MethodType.text, List.length_cons, List.length_append]
      omega
    have parameters := read_parameters?_text t.parameters legal.parameters
      (MethodType.resultText t.result) t.text.length enough
    have result := read_result?_text t.result legal.result
    have opened : t.text.head? = some '(' := rfl
    have inside : t.text.tail = t.parameters.flatMap FieldType.text ++
      ')' :: MethodType.resultText t.result := rfl
    rw [readMethodType?, if_pos opened, inside, parameters, Option.bind_some]
    dsimp only
    rw [result]
    rfl

theorem exact_strict_types? : Exact (fun dimensions _ => dimensions ≤ 255) strictTypes? := by
  intro d values
  simp only [strictTypes?, Option.map_eq_some_iff, Option.filter_eq_some_iff, read_method_type?_iff,
    decide_eq_true_eq]
  constructor
  · intro ⟨t, ⟨⟨legal, isText⟩, fits⟩, same⟩
    exact ⟨t, legal, fits, isText, same⟩
  · intro ⟨t, legal, fits, isText, same⟩
    exact ⟨t, ⟨⟨legal, isText⟩, fits⟩, same⟩

end Reader

end Descriptor

end JvmEdit
