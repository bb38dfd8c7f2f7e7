import JvmEdit.Proofs.Index.Reversal
set_option autoImplicit false

namespace JvmEdit

namespace Signature

def Token.className? : Token → Option String
  | .mark _ => none
  | .className name => some (String.ofList name)

-- The class names that stand in a descriptor or signature.
def mentioned (text : String) : List String := ((tokens? text.toList).getD []).filterMap Token.className?

theorem mem_mentioned (text name : String) : name ∈ mentioned text ↔ Names text name := by
  have each : ∀ token : Token, token.className? = some name ↔ token = .className name.toList := by
    intro token
    cases token with
    | mark c => simp [Token.className?]
    | className chars =>
        rw [Token.className?, Option.some_inj, Token.className.injEq, ← String.toList_inj,
          String.toList_ofList]
  rw [mentioned, List.mem_filterMap]
  simp only [each, exists_eq_right]
  cases read : tokens? text.toList with
  | none => simp [Names, read]
  | some tokens => simp [Names, read]

theorem held_of_emitted (mode : Mode) (c : Char) (name : List Char)
    (member : .className name ∈ emitted mode c) : held mode = name := by
  cases mode with
  | className place reversed =>
      by_cases ends : endsName c = true
      · simpa [emitted, ends, held, eq_comm] using member
      · simp [emitted, ends] at member
  | _ => simp [emitted] at member

theorem scan_plain (mode : Mode) (text : List Char) (tokens : List Token)
    (inName : ∀ c ∈ held mode, endsName c = false) (read : scan mode [] text = some tokens) :
    ∀ name, .className name ∈ tokens → ∀ c ∈ name, endsName c = false := by
  induction text generalizing mode tokens with
  | nil =>
      obtain ⟨_, isEmpty⟩ := Option.ite_none_right_eq_some.mp read
      obtain rfl : [] = tokens := by simpa using isEmpty
      exact fun _ member => absurd member List.not_mem_nil
  | cons c text ih =>
      obtain ⟨mode', later, stepped, readLater, rfl⟩ := scan_cons_some mode c text tokens read
      intro name member
      rcases List.mem_append.mp member with ended | isLater
      · exact held_of_emitted mode c name ended ▸ inName
      · exact ih mode' later (held_step mode mode' c inName stepped) readLater name isLater

theorem plain_of_names (text name : String) (named : Names text name) :
    ∀ c ∈ name.toList, endsName c = false := by
  obtain ⟨tokens, read, member⟩ := named
  exact scan_plain .start text.toList tokens (by simp [held]) read name.toList member

end Signature

namespace Renaming

-- Descriptors can spell the new name if they can spell the old one.
def Spellable (r : Renaming) : Prop :=
  (∀ c ∈ r.old.toList, Signature.endsName c = false) → ∀ c ∈ r.new.toList, Signature.endsName c = false

variable (r : Renaming) (spellable : r.Spellable)

theorem descriptor_unnamed (text : String) (absent : ¬Signature.Names text r.old) : r.descriptor text = text := by
  rw [descriptor, Signature.rename?_unnamed text r.old r.new absent]
  rfl

include spellable

theorem descriptor_restored (text : String) (absent : ¬Signature.Names text r.new) :
    r.back.descriptor (r.descriptor text) = text := by
  by_cases named : Signature.Names text r.old
  · obtain ⟨tokens, read, member⟩ := id named
    have plain := spellable (Signature.plain_of_names text r.old named)
    have renamed := Signature.rename?_of_names text r.old r.new tokens read member
    have restored := Signature.rename?_back text r.old r.new _ plain absent renamed
    simp only [descriptor, back, renamed, Option.getD_some, restored]
  · rw [r.descriptor_unnamed text named]
    exact r.back.descriptor_unnamed text absent

theorem length_mentioned (text : String) :
    (Signature.mentioned (r.descriptor text)).length = (Signature.mentioned text).length := by
  by_cases named : Signature.Names text r.old
  · obtain ⟨tokens, read, member⟩ := id named
    have plain := spellable (Signature.plain_of_names text r.old named)
    have reread := Signature.tokens?_rename r.old.toList r.new.toList plain text.toList tokens read
    rw [descriptor, Signature.rename?_of_names text r.old r.new tokens read member, Option.getD_some,
      Signature.mentioned, Signature.mentioned, String.toList_ofList, reread, read]
    simp only [Option.getD_some, List.length_filterMap_eq_countP, List.countP_map]
    refine List.countP_congr fun token _ => ?_
    cases token <;> rfl
  · rw [r.descriptor_unnamed text named]

end Renaming

namespace Program

-- The names of classes, fields and methods, and the class names in the descriptors of methods.
def nameOccurrences (p : Program) : List String :=
  p.classIds.filterMap p.className? ++ p.fieldIds.filterMap (fun i => (p.fieldNaming? i).map (·.name)) ++
    p.methodIds.filterMap (fun i => (p.methodNaming? i).map (·.name)) ++
    p.methodIds.flatMap fun i => ((p.methodNaming? i).map (·.descriptor)).elim [] Signature.mentioned

section Occurrences

variable (p : Program)

theorem mem_name_occurrences_class (id : ClassId) (name : String) (live : p.className? id = some name) :
    name ∈ p.nameOccurrences := by
  obtain ⟨c, found, _⟩ := class_name_live p id name live
  have member : id ∈ p.classIds := (Table.mem_keys_iff _ _).mpr ⟨c, found⟩
  simp only [nameOccurrences, List.mem_append, List.mem_filterMap]
  exact .inl (.inl (.inl ⟨id, member, live⟩))

theorem mem_name_occurrences_field (id : FieldId) (f : Field) (live : p.field? id = some f) :
    f.name ∈ p.nameOccurrences := by
  have member : id ∈ p.fieldIds := (Table.mem_keys_iff _ _).mpr ⟨f, live⟩
  simp only [nameOccurrences, List.mem_append, List.mem_filterMap]
  exact .inl (.inl (.inr ⟨id, member, by rw [fieldNaming?, live]; rfl⟩))

theorem mem_name_occurrences_method (id : MethodId) (m : Method) (live : p.method? id = some m) :
    m.name ∈ p.nameOccurrences := by
  have member : id ∈ p.methodIds := (Table.mem_keys_iff _ _).mpr ⟨m, live⟩
  simp only [nameOccurrences, List.mem_append, List.mem_filterMap]
  exact .inl (.inr ⟨id, member, by rw [methodNaming?, live]; rfl⟩)

theorem mem_name_occurrences_descriptor (id : MethodId) (m : Method) (live : p.method? id = some m)
    (name : String) (named : Signature.Names m.descriptor name) : name ∈ p.nameOccurrences := by
  have member : id ∈ p.methodIds := (Table.mem_keys_iff _ _).mpr ⟨m, live⟩
  have mentioned := (Signature.mem_mentioned m.descriptor name).mpr named
  simp only [nameOccurrences, List.mem_append, List.mem_flatMap]
  exact .inr ⟨id, member, by rw [methodNaming?, live]; exact mentioned⟩

end Occurrences

section Refused

variable (p : Program) (new key : String) (indexed : p.Indexed)

theorem rename_class_refused (id : ClassId) (old : String) (live : p.className? id = some old) (e : EditError)
    (refused : p.renameClass id new = .error e) : ∃ key, e = .nameTaken key := by
  simp only [renameClass, live] at refused
  split at refused
  · cases refused
  · split at refused
    · cases refused
      exact ⟨_, rfl⟩
    · split at refused <;> cases refused
      exact ⟨_, rfl⟩

include indexed

theorem rename_class_taken (id : ClassId) (old : String) (live : p.className? id = some old)
    (plain : Undotted new) (spellable : Renaming.Spellable ⟨old, new⟩)
    (taken : p.renameClass id new = .error (.nameTaken key)) : new ∈ p.nameOccurrences := by
  by_contra absent
  have free : p.findClass? new = none := by
    refine Option.eq_none_iff_forall_ne_some.mpr fun other found => ?_
    exact absent (p.mem_name_occurrences_class other new ((indexed.classNames new other).mp found))
  have unnamed : ∀ m ∈ p.methods.values, ¬Signature.Names m.descriptor new := by
    intro m member named
    obtain ⟨⟨i, _⟩, isRow, rfl⟩ := List.mem_map.mp member
    have live := Table.find_of_mem _ _ _ (Table.keys_nodup _ indexed.methodOrder) isRow
    exact absent (p.mem_name_occurrences_descriptor i _ live new named)
  by_cases same : old = new
  · simp [renameClass, live, same] at taken
  · have distinct := method_keys_after_distinct p id ⟨old, new⟩ indexed free plain fun m member m' member' equal => by
      rw [← Renaming.descriptor_restored ⟨old, new⟩ spellable m.descriptor (unnamed m member), equal,
        Renaming.descriptor_restored ⟨old, new⟩ spellable m'.descriptor (unnamed m' member')]
    have done := rename_class_eq p id ⟨old, new⟩ indexed live same free distinct
    rw [done] at taken
    cases taken

theorem find_field_key?_occurs (owner : String) (plain : Undotted new)
    (found : (p.findFieldKey? (Key.field owner new)).isSome = true) : new ∈ p.nameOccurrences := by
  obtain ⟨id, isKey⟩ := Option.isSome_iff_exists.mp found
  have held : p.fieldKey? id = some (Key.field owner new) := (indexed.fields.inverse _ id).mp isKey
  obtain ⟨f, c, live, ownerLive, same⟩ := field_key_live p id _ held
  have plain_owner : Undotted c.name :=
    indexed.plainClass f.owner c.naming (congrArg (Option.map Class.naming) ownerLive)
  have plainName : Undotted f.name :=
    indexed.plainField id f.naming (congrArg (Option.map Field.naming) live)
  obtain ⟨_, rfl⟩ := Key.field_injective_of_plain _ _ _ _ plain_owner plainName same
  exact p.mem_name_occurrences_field id f live

theorem rename_field_taken (id : FieldId) (plain : Undotted new)
    (taken : p.renameField id new = .error (.nameTaken key)) : new ∈ p.nameOccurrences := by
  simp only [renameField] at taken
  split at taken
  · cases taken
  · split at taken
    · cases taken
    · split at taken
      · cases taken
      · split at taken
        · rename_i owner _ found
          exact p.find_field_key?_occurs new indexed owner plain found
        · split at taken
          · rename_i stolen
            obtain ⟨ref, _, at'⟩ := List.exists_of_findSome?_eq_some stolen
            split at at'
            · cases at'
            · rename_i use _
              dsimp only at at'
              split at at'
              · rename_i found
                obtain ⟨other, isKey, _⟩ := (Option.any_eq_true ..).mp found
                exact p.find_field_key?_occurs new indexed use.owner plain (by rw [isKey]; rfl)
              · cases at'
          · split at taken
            · rename_i rebinds
              obtain ⟨⟨other, g⟩, isRow, inherited⟩ := List.any_eq_true.mp rebinds
              simp only [Bool.and_eq_true, decide_eq_true_eq] at inherited
              obtain ⟨⟨_, rfl⟩, _⟩ := inherited
              have live := Table.find_of_mem _ _ _ (Table.keys_nodup _ indexed.fieldOrder) isRow
              exact p.mem_name_occurrences_field other g live
            · cases taken

theorem rename_method_taken (id : MethodId) (plain : Undotted new)
    (taken : p.renameMethod id new = .error (.nameTaken key)) : new ∈ p.nameOccurrences := by
  simp only [renameMethod] at taken
  split at taken
  · cases taken
  · split at taken
    · cases taken
    · split at taken
      · cases taken
      · split at taken
        · cases taken
        · split at taken
          · rename_i owner loaded found
            obtain ⟨other, isKey⟩ := Option.isSome_iff_exists.mp found
            have held := (indexed.methods.inverse _ other).mp isKey
            obtain ⟨m, c, live, ownerLive, same⟩ := method_key_live p other _ held
            obtain ⟨d, ownerFound, rfl⟩ := class_name_live p _ owner loaded
            have plainOf : ∀ i e, p.class? i = some e → Undotted e.name := fun i e found =>
              indexed.plainClass i e.naming (congrArg (Option.map Class.naming) found)
            have plainName : Undotted m.name :=
              indexed.plainMethod other m.naming (congrArg (Option.map Method.naming) live)
            obtain ⟨_, rfl, _⟩ := Key.method_injective _ _ _ _ _ _ (plainOf _ _ ownerFound)
              (plainOf _ _ ownerLive) plain plainName same
            exact p.mem_name_occurrences_method other m live
          · cases taken

end Refused

section Extent

theorem length_filter_map_congr {α β γ : Type} (xs : List α) (f : α → Option β) (g : α → Option γ)
    (same : ∀ x ∈ xs, (f x).isSome = (g x).isSome) : (xs.filterMap f).length = (xs.filterMap g).length := by
  rw [List.length_filterMap_eq_countP, List.length_filterMap_eq_countP]
  exact List.countP_congr fun x member => by rw [same x member]

variable {p q : Program}

theorem length_name_occurrences (classIds : q.classIds = p.classIds) (fieldIds : q.fieldIds = p.fieldIds)
    (methodIds : q.methodIds = p.methodIds)
    (classes : ∀ i, (q.className? i).isSome = (p.className? i).isSome)
    (fields : ∀ i, (q.fieldNaming? i).isSome = (p.fieldNaming? i).isSome)
    (methods : ∀ i, (q.methodNaming? i).isSome = (p.methodNaming? i).isSome)
    (descriptors : ∀ i,
      (((q.methodNaming? i).map (·.descriptor)).elim [] Signature.mentioned).length =
        (((p.methodNaming? i).map (·.descriptor)).elim [] Signature.mentioned).length) :
    q.nameOccurrences.length = p.nameOccurrences.length := by
  have classNames := length_filter_map_congr p.classIds q.className? p.className? fun i _ => classes i
  have fieldNames := length_filter_map_congr p.fieldIds (fun i => (q.fieldNaming? i).map (·.name))
    (fun i => (p.fieldNaming? i).map (·.name)) fun i _ => by simp [fields]
  have methodNames := length_filter_map_congr p.methodIds (fun i => (q.methodNaming? i).map (·.name))
    (fun i => (p.methodNaming? i).map (·.name)) fun i _ => by simp [methods]
  simp only [nameOccurrences, List.length_append, List.length_flatMap, classIds, fieldIds, methodIds,
    classNames, fieldNames, methodNames, descriptors]

theorem name_occurrences_same_names (same : SameNames p q) : q.nameOccurrences = p.nameOccurrences := by
  have classes : q.className? = p.className? := funext same.class_name
  have fields : q.fieldNaming? = p.fieldNaming? := funext same.fields
  have methods : q.methodNaming? = p.methodNaming? := funext same.methods
  rw [nameOccurrences, nameOccurrences, same.classIds, same.fieldIds, same.methodIds, classes, fields, methods]

theorem length_name_occurrences_rename_class (indexed : p.Indexed) (id : ClassId) (old new : String)
    (live : p.className? id = some old) (spellable : Renaming.Spellable ⟨old, new⟩)
    (done : p.renameClass id new = .ok q) : q.nameOccurrences.length = p.nameOccurrences.length := by
  obtain ⟨old', live', outcome⟩ := rename_class_ok p q id new indexed.is_owned
    (Table.keys_nodup _ indexed.classOrder) (Table.keys_nodup _ indexed.fieldOrder)
    (Table.keys_nodup _ indexed.methodOrder) done
  cases live.symm.trans live'
  rcases outcome with ⟨_, rfl⟩ | ⟨_, _, _, rfl⟩
  · rfl
  · have kept := same_names_relink_class (p.renamed id ⟨old, new⟩) id
    apply length_name_occurrences
    · exact class_ids_renamed_to p id ⟨old, new⟩
    · rw [kept.fieldIds]
      exact Table.keys_map_values _ _
    · rw [kept.methodIds]
      exact Table.keys_map_values _ _
    · intro i
      rw [kept.class_name, class_name?_renamed p id ⟨old, new⟩ live, nameAfter]
      split
      · rename_i same
        rw [same, live]
        rfl
      · rfl
    · intro i
      rw [kept.fields, field_naming?_renamed]
    · intro i
      rw [kept.methods, method_naming?_renamed, Option.isSome_map]
    · intro i
      rw [kept.methods, method_naming?_renamed, Option.map_map]
      cases p.methodNaming? i with
      | none => rfl
      | some m => exact Renaming.length_mentioned ⟨old, new⟩ spellable m.descriptor

theorem length_name_occurrences_rename_field (id : FieldId) (new : String) (done : p.renameField id new = .ok q) :
    q.nameOccurrences.length = p.nameOccurrences.length := by
  obtain ⟨f, _, ⟨_, rfl⟩ | ⟨owner, _, _, _, _, _, rfl⟩⟩ := rename_field_ok p q id new done
  · rfl
  · have fields := field_naming?_relabel_field p id owner f.name new
    rw [name_occurrences_same_names (same_names_update_all _ f.references _)]
    apply length_name_occurrences
    · rfl
    · exact Table.keys_modify _ _ _
    · rfl
    · exact fun _ => rfl
    · intro i
      rw [fields]
      split
      · exact Option.isSome_map
      · rfl
    · exact fun _ => rfl
    · exact fun _ => rfl

theorem length_name_occurrences_rename_method (id : MethodId) (new : String) (done : p.renameMethod id new = .ok q) :
    q.nameOccurrences.length = p.nameOccurrences.length := by
  obtain ⟨m, _, _, ⟨_, rfl⟩ | ⟨owner, _, _, _, rfl⟩⟩ := rename_method_ok p q id new done
  · rfl
  · have methods := method_naming?_relabel_method p id owner m.name new m.descriptor
    rw [name_occurrences_same_names (same_names_update_all _ m.invocations _)]
    apply length_name_occurrences
    · rfl
    · rfl
    · exact Table.keys_modify _ _ _
    · exact fun _ => rfl
    · exact fun _ => rfl
    · intro i
      rw [methods]
      split
      · exact Option.isSome_map
      · rfl
    · intro i
      rw [methods]
      split
      · cases p.methodNaming? i <;> rfl
      · rfl

end Extent

end Program

end JvmEdit
