import JvmEdit.Descriptor.Slots
import JvmEdit.Libraries.Descriptor
import JvmEdit.Proofs.Descriptor.Rename
set_option autoImplicit false

namespace JvmEdit

namespace Signature

-- One text becomes the other by taking `new` for `old` after some of its `L`s.
inductive Recast (old new : List Char) : List Char → List Char → Prop
  | nil : Recast old new [] []
  | cons (c : Char) {text text' : List Char} : Recast old new text text' →
      Recast old new (c :: text) (c :: text')
  | name {text text' : List Char} : Recast old new text text' →
      Recast old new ('L' :: (old ++ text)) ('L' :: (new ++ text'))

namespace Recast

variable {old new : List Char}

theorem refl (text : List Char) : Recast old new text text := by
  induction text with
  | nil => exact .nil
  | cons c text ih => exact .cons c ih

theorem symm {text text' : List Char} (recast : Recast old new text text') :
    Recast new old text' text := by
  induction recast with
  | nil => exact .nil
  | cons c _ ih => exact .cons c ih
  | name _ ih => exact .name ih

theorem append_left (front : List Char) {text text' : List Char} (recast : Recast old new text text') :
    Recast old new (front ++ text) (front ++ text') := by
  induction front with
  | nil => exact recast
  | cons c front ih => exact .cons c ih

theorem head? {text text' : List Char} (recast : Recast old new text text') :
    text'.head? = text.head? := by
  cases recast <;> rfl

theorem tail {c : Char} {text text' : List Char} (recast : Recast old new (c :: text) text')
    (other : c ≠ 'L') : ∃ rest, text' = c :: rest ∧ Recast old new text rest := by
  cases recast with
  | cons _ recast => exact ⟨_, rfl, recast⟩
  | name _ => exact absurd rfl other

theorem nil_iff {text : List Char} : Recast old new [] text ↔ text = [] := by
  constructor
  · intro recast
    cases recast
    rfl
  · intro isEmpty
    subst isEmpty
    exact .nil

theorem single {c : Char} {text : List Char} (recast : Recast old new [c] text) (other : c ≠ 'L') :
    text = [c] := by
  obtain ⟨rest, rfl, recastRest⟩ := recast.tail other
  rw [nil_iff.mp recastRest]

theorem brackets {text text' : List Char} (recast : Recast old new text text') :
    text'.takeWhile (· = '[') = text.takeWhile (· = '[') ∧
      Recast old new (text.dropWhile (· = '[')) (text'.dropWhile (· = '[')) := by
  induction recast with
  | nil => exact ⟨rfl, .nil⟩
  | cons c recast ih =>
      by_cases bracket : c = '['
      · simpa [bracket] using ih
      · simpa [bracket] using Recast.cons c recast
  | name recast => simpa using recast.name

section Semicolon

variable (plainOld : ';' ∉ old)

include plainOld

theorem cut_name {text front rest : List Char} (cut : old ++ text = front ++ ';' :: rest) :
    ∃ front', front = old ++ front' ∧ text = front' ++ ';' :: rest := by
  obtain ⟨between, isFront, isText⟩ | ⟨between, isOld, isRest⟩ := List.append_eq_append_iff.mp cut
  · exact ⟨between, isFront, isText⟩
  · cases between with
    | nil => exact ⟨[], by simpa using isOld.symm, by simpa using isRest.symm⟩
    | cons c between =>
        obtain ⟨rfl, _⟩ := List.cons.inj isRest
        exact absurd (isOld ▸ List.mem_append_right _ List.mem_cons_self) plainOld

theorem split {text text' front rest : List Char} (recast : Recast old new text text')
    (cut : text = front ++ ';' :: rest) :
    ∃ front' rest', text' = front' ++ ';' :: rest' ∧ Recast old new front front' ∧
      Recast old new rest rest' := by
  induction recast generalizing front with
  | nil => exact absurd cut.symm (by simp)
  | cons c recast ih =>
      cases front with
      | nil =>
          obtain ⟨rfl, rfl⟩ := List.cons.inj cut
          exact ⟨[], _, rfl, .nil, recast⟩
      | cons d front =>
          obtain ⟨rfl, cutTail⟩ := List.cons.inj cut
          obtain ⟨front', rest', rfl, recastFront, recastRest⟩ := ih cutTail
          exact ⟨c :: front', rest', rfl, .cons c recastFront, recastRest⟩
  | name recast ih =>
      cases front with
      | nil => exact absurd (List.cons.inj cut).1 (by decide)
      | cons d front =>
          obtain ⟨rfl, cutTail⟩ := List.cons.inj cut
          obtain ⟨later, rfl, cutLater⟩ := cut_name plainOld cutTail
          obtain ⟨front', rest', rfl, recastFront, recastRest⟩ := ih cutLater
          exact ⟨'L' :: (new ++ front'), rest', by simp, .name recastFront, recastRest⟩

end Semicolon

end Recast

-- The `L` in front of a class name that is being read.
def lead : Mode → List Char
  | .className .. => ['L']
  | _ => []

theorem lead_type_step (place : Place) (c : Char) (mode : Mode) (ok : typeStep place c = some mode) :
    lead mode = [] ∨ c = 'L' := by
  unfold typeStep at ok
  grind [lead]

theorem lead_tail_step (place : Place) (c : Char) (mode : Mode) (ok : tailStep place c = some mode) :
    lead mode = [] := by
  unfold tailStep at ok
  grind [lead]

theorem lead_next_step (place : Place) (c : Char) (mode : Mode) (ok : nextStep place c = some mode) :
    lead mode = [] ∨ c = 'L' := by
  cases place <;> unfold nextStep at ok <;> grind [lead, lead_type_step]

theorem lead_mode_step (mode mode' : Mode) (c : Char) (outside : emitted mode c = [.mark c])
    (ok : modeStep mode c = some mode') : lead mode' = [] ∨ c = 'L' := by
  cases mode with
  | className place reversed =>
      simp only [emitted] at outside
      split at outside <;> simp at outside
  | _ =>
      unfold modeStep at ok
      grind [lead, lead_type_step, lead_tail_step, lead_next_step]

theorem recast_scan (old new : List Char) (mode : Mode) (text : List Char) (tokens : List Token)
    (read : scan mode [] text = some tokens) :
    Recast old new (lead mode ++ render tokens)
      (lead mode ++ render (tokens.map (Token.rename old new))) := by
  induction text generalizing mode tokens with
  | nil =>
      obtain ⟨_, isEmpty⟩ := Option.ite_none_right_eq_some.mp read
      obtain rfl : [] = tokens := by simpa using isEmpty
      exact .refl _
  | cons c text ih =>
      obtain ⟨mode', later, stepped, readLater, rfl⟩ := scan_cons_some mode c text tokens read
      have rest := ih mode' later readLater
      cases mode with
      | className place reversed =>
          by_cases ends : endsName c = true
          · have outside := lead_tail_step place c mode' (by simpa [modeStep, ends] using stepped)
            rw [outside] at rest
            have tail : Recast old new (c :: render later)
                (c :: render (later.map (Token.rename old new))) := .cons c rest
            by_cases isOld : reversed.reverse = old
            · simpa [emitted, ends, lead, render, Token.render, Token.rename, isOld] using tail.name
            · simpa [emitted, ends, lead, render, Token.render, Token.rename, isOld] using
                tail.append_left ('L' :: reversed.reverse)
          · have inside : mode' = .className place (c :: reversed) := by
              simpa [modeStep, ends, eq_comm] using stepped
            subst inside
            simpa [emitted, ends, lead] using rest
      | _ =>
          rcases lead_mode_step _ mode' c rfl stepped with outside | isL
          · rw [outside] at rest
            simpa [emitted, lead, render, Token.render, Token.rename] using rest.cons c
          · subst isL
            cases mode' with
            | className => simpa [emitted, lead, render, Token.render, Token.rename] using rest
            | _ => simpa [emitted, lead, render, Token.render, Token.rename] using rest.cons 'L'

end Signature

theorem Renaming.recast_descriptor (r : Renaming) (text : String) :
    Signature.Recast r.old.toList r.new.toList text.toList (r.descriptor text).toList := by
  simp only [descriptor, Signature.rename?]
  cases read : Signature.tokens? text.toList with
  | none => exact .refl _
  | some tokens =>
      rw [Option.bind_some]
      split
      · rw [Option.getD_some, String.toList_ofList]
        have recast := Signature.recast_scan r.old.toList r.new.toList .start text.toList tokens read
        simpa [Signature.lead, Signature.render_tokens? _ _ read] using recast
      · exact .refl _

namespace Descriptor

theorem after_semicolon?_cons (c : Char) (text : List Char) :
    afterSemicolon? (c :: text) = if c = ';' then some text else afterSemicolon? text := by
  by_cases isSemicolon : c = ';' <;> simp [afterSemicolon?, isSemicolon]

section Types

variable {old new : List Char} (plainOld : ';' ∉ old) (plainNew : ';' ∉ new)

theorem after_semicolon?_append (front text : List Char) (plain : ';' ∉ front) :
    afterSemicolon? (front ++ text) = afterSemicolon? text := by
  induction front with
  | nil => rfl
  | cons c front ih =>
      rw [List.cons_append, after_semicolon?_cons, if_neg (List.ne_of_not_mem_cons plain).symm]
      exact ih (List.not_mem_of_not_mem_cons plain)

include plainOld plainNew

theorem after_semicolon?_recast {text text' rest : List Char}
    (recast : Signature.Recast old new text text') (found : afterSemicolon? text = some rest) :
    ∃ rest', afterSemicolon? text' = some rest' ∧ Signature.Recast old new rest rest' := by
  induction recast with
  | nil => cases found
  | cons c recast ih =>
      rw [after_semicolon?_cons] at found
      split at found
      · rename_i isSemicolon
        cases found
        exact ⟨_, by rw [after_semicolon?_cons, if_pos isSemicolon], recast⟩
      · rename_i other
        rw [after_semicolon?_cons, if_neg other]
        exact ih found
  | name recast ih =>
      rw [after_semicolon?_cons, if_neg (by decide)] at found ⊢
      rw [after_semicolon?_append old _ plainOld] at found
      rw [after_semicolon?_append new _ plainNew]
      exact ih found

theorem element_type?_recast {text text' : List Char} {type : ValueType} {rest : List Char}
    (recast : Signature.Recast old new text text') (found : elementType? text = some (type, rest)) :
    ∃ rest', elementType? text' = some (type, rest') ∧ Signature.Recast old new rest rest' := by
  cases text with
  | nil => cases found
  | cons c text =>
      by_cases isL : c = 'L'
      · subst isL
        obtain ⟨text', rfl⟩ : ∃ tail, text' = 'L' :: tail := List.head?_eq_some_iff.mp recast.head?
        obtain ⟨after, isAfter, same⟩ := Option.map_eq_some_iff.mp found
        cases same
        have whole : afterSemicolon? ('L' :: text) = some rest := by
          rw [after_semicolon?_cons, if_neg (by decide), isAfter]
        obtain ⟨rest', found', recastRest⟩ := after_semicolon?_recast plainOld plainNew recast whole
        rw [after_semicolon?_cons, if_neg (by decide)] at found'
        exact ⟨rest', by rw [elementType?, found']; rfl, recastRest⟩
      · obtain ⟨tail, rfl, recastTail⟩ := recast.tail isL
        have base : ∀ text, elementType? (c :: text) = (baseType? c).map fun type => (type, text) := by
          intro text
          rw [elementType?]
          exact isL
        rw [base] at found ⊢
        obtain ⟨_, isBase, same⟩ := Option.map_eq_some_iff.mp found
        cases same
        exact ⟨tail, by rw [isBase]; rfl, recastTail⟩

theorem next_type?_recast {text text' : List Char} {type : ValueType} {rest : List Char}
    (recast : Signature.Recast old new text text') (found : nextType? text = some (type, rest)) :
    ∃ rest', nextType? text' = some (type, rest') ∧ Signature.Recast old new rest rest' := by
  obtain ⟨depth, recastElement⟩ := recast.brackets
  simp only [nextType?, depth] at found ⊢
  split at found
  · rename_i flat
    rw [if_pos flat]
    exact element_type?_recast plainOld plainNew recastElement found
  · rename_i deep
    rw [if_neg deep]
    split at found
    · rename_i fits
      obtain ⟨element, isElement, same⟩ := Option.map_eq_some_iff.mp found
      cases same
      obtain ⟨rest', isElement', recastRest⟩ :=
        element_type?_recast plainOld plainNew recastElement isElement
      exact ⟨rest', by rw [if_pos fits, isElement']; rfl, recastRest⟩
    · cases found

theorem types_from?_recast (text : List Char) {text' : List Char} {types : List ValueType × ValueType}
    (recast : Signature.Recast old new text text') (found : typesFrom? text = some types) :
    typesFrom? text' = some types := by
  fun_induction typesFrom? text generalizing text' types with
  | case1 rest =>
      obtain ⟨rest', rfl, recastRest⟩ := recast.tail (by decide)
      obtain ⟨⟨result, after⟩, isResult, rfl⟩ := Option.map_eq_some_iff.mp found
      obtain ⟨_, isResult', _⟩ := next_type?_recast plainOld plainNew recastRest isResult
      rw [typesFrom?, isResult']
      rfl
  | case2 => cases found
  | case3 text unclosed parameter rest isParameter ih =>
      obtain ⟨rest', isParameter', recastRest⟩ := next_type?_recast plainOld plainNew recast isParameter
      obtain ⟨later, areLater, rfl⟩ := Option.map_eq_some_iff.mp found
      rw [typesFrom?]
      · split
        · rename_i refused
          rw [isParameter'] at refused
          cases refused
        · rename_i parameter' after isParameter''
          rw [isParameter'] at isParameter''
          cases isParameter''
          rw [ih recastRest areLater]
          rfl
      · intro after closed
        have head := recast.head?
        rw [closed] at head
        obtain ⟨front, isText⟩ := List.head?_eq_some_iff.mp head.symm
        exact unclosed front isText

theorem method_types?_recast {d d' : String} {types : List ValueType × ValueType}
    (recast : Signature.Recast old new d.toList d'.toList) (found : methodTypes? d = some types) :
    methodTypes? d' = some types := by
  simp only [methodTypes?] at found ⊢
  split at found
  · rename_i rest isText
    rw [isText] at recast
    obtain ⟨rest', isText', recastRest⟩ := recast.tail (by decide)
    rw [isText']
    exact types_from?_recast plainOld plainNew rest recastRest found
  · cases found

end Types

end Descriptor

namespace Renaming

variable (r : Renaming)

theorem field_slots_descriptor (d : String) :
    Descriptor.fieldSlots (r.descriptor d) = Descriptor.fieldSlots d := by
  have first := (r.recast_descriptor d).head?
  simp only [Descriptor.fieldSlots]
  cases same : d.toList with
  | nil =>
      rw [same] at first
      rw [List.head?_eq_none_iff.mp first]
  | cons c rest =>
      rw [same] at first
      obtain ⟨rest', isText⟩ := List.head?_eq_some_iff.mp first
      rw [isText]

theorem method_types?_descriptor (plainOld : ';' ∉ r.old.toList) (plainNew : ';' ∉ r.new.toList)
    (d : String) : Descriptor.methodTypes? (r.descriptor d) = Descriptor.methodTypes? d := by
  have recast := r.recast_descriptor d
  apply Option.ext
  intro types
  exact ⟨Descriptor.method_types?_recast plainNew plainOld recast.symm,
    Descriptor.method_types?_recast plainOld plainNew recast⟩

theorem slots_constant (value : Constant) : (r.constant value).slots = value.slots := by
  have letter : ∀ (d : String) (c : Char), c ≠ 'L' →
      (r.descriptor d = String.ofList [c] ↔ d = String.ofList [c]) := by
    intro d c other
    have recast := r.recast_descriptor d
    rw [← String.toList_inj, ← String.toList_inj, String.toList_ofList]
    constructor
    · intro same
      rw [same] at recast
      exact recast.symm.single other
    · intro same
      rw [same] at recast
      exact recast.single other
  cases value with
  | dynamic name d bootstrap =>
      have isLong : r.descriptor d = "J" ↔ d = "J" := letter d 'J' (by decide)
      have isDouble : r.descriptor d = "D" ↔ d = "D" := letter d 'D' (by decide)
      simp only [constant, Constant.slots, isLong, isDouble]
  | _ => rfl

end Renaming

end JvmEdit
