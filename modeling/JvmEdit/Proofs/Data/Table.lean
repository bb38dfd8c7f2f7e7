import JvmEdit.Data.Table
import Mathlib.Data.List.Sort
import Mathlib.Order.Defs.Unbundled
set_option autoImplicit false

namespace JvmEdit

namespace Table

variable {κ α β : Type}

def Ordered [LT κ] (t : Table κ α) : Prop := t.keys.Pairwise (· < ·)

theorem find_is_some_iff [DecidableEq κ] (rows : List (κ × α)) (key : κ) :
    (find rows key).isSome ↔ key ∈ rows.map Prod.fst := by
  induction rows with
  | nil => simp [find]
  | cons row rows ih =>
      obtain ⟨k, v⟩ := row
      by_cases same : k = key
      · simp [find, same]
      · simp [find, same, ih, Ne.symm same]

theorem mem_keys_iff [DecidableEq κ] (t : Table κ α) (key : κ) :
    key ∈ t.keys ↔ ∃ value, t.get? key = some value := by
  rw [← Option.isSome_iff_exists]
  exact (find_is_some_iff t.toList key).symm

theorem mem_of_find [DecidableEq κ] (rows : List (κ × α)) (key : κ) (value : α)
    (found : find rows key = some value) : (key, value) ∈ rows := by
  induction rows with
  | nil => simp [find] at found
  | cons row rows ih =>
      obtain ⟨k, v⟩ := row
      by_cases same : k = key
      · have eq : v = value := by simpa [find, same] using found
        simp [same, eq]
      · have later : find rows key = some value := by simpa [find, same] using found
        exact List.mem_cons_of_mem _ (ih later)

theorem find_of_mem [DecidableEq κ] (rows : List (κ × α)) (key : κ) (value : α)
    (unique : (rows.map Prod.fst).Nodup) (present : (key, value) ∈ rows) :
    find rows key = some value := by
  induction rows with
  | nil => simp at present
  | cons row rows ih =>
      obtain ⟨k, v⟩ := row
      rw [List.map_cons, List.nodup_cons] at unique
      rcases List.mem_cons.mp present with atHead | later
      · cases atHead
        simp [find]
      · have differ : k ≠ key := fun same =>
          unique.1 (same ▸ List.mem_map.mpr ⟨_, later, rfl⟩)
        simpa [find, differ] using ih unique.2 later

theorem find_map_snd [DecidableEq κ] (f : α → β) (rows : List (κ × α)) (key : κ) :
    find (rows.map fun row => (row.1, f row.2)) key = (find rows key).map f := by
  induction rows with
  | nil => simp [find]
  | cons row rows ih =>
      by_cases same : row.1 = key <;> simp [find, same, ih]

theorem get?_erase_if [DecidableEq κ] [DecidableEq α] (t : Table κ α) (key other : κ) (value : α) :
    (t.eraseIf key value).1.get? other =
      if key = other ∧ t.get? key = some value then none else t.get? other := by
  by_cases held : t.get? key = some value
  · rw [eraseIf, if_pos held, get?_erase]
    simp only [held, and_true]
  · simp [eraseIf, held]

def mapValues (t : Table κ α) (f : α → α) : Table κ α := ⟨t.toList.map fun row => (row.1, f row.2)⟩

theorem get?_map_values [DecidableEq κ] (t : Table κ α) (f : α → α) (key : κ) :
    (t.mapValues f).get? key = (t.get? key).map f := find_map_snd f t.toList key

theorem map_values_back (t : Table κ α) (f g : α → α) (back : ∀ value ∈ t.values, g (f value) = value) :
    (t.mapValues f).mapValues g = t := by
  refine congrArg Table.mk ((List.map_map ..).trans ?_)
  refine (List.map_congr_left fun row member => ?_).trans (List.map_id t.toList)
  exact congrArg (Prod.mk row.1) (back row.2 (List.mem_map_of_mem member))

theorem values_map_values (t : Table κ α) (f : α → α) : (t.mapValues f).values = t.values.map f := by
  simp [values, mapValues, Function.comp_def]

theorem keys_map_values (t : Table κ α) (f : α → α) : (t.mapValues f).keys = t.keys := by
  simp [keys, mapValues, Function.comp_def]

theorem map_values_modify [DecidableEq κ] (t : Table κ α) (key : κ) (f g : α → α)
    (hidden : ∀ value, g (f value) = g value) : (t.modify key f).mapValues g = t.mapValues g := by
  refine congrArg Table.mk ((List.map_map ..).trans (List.map_congr_left fun row _ => ?_))
  by_cases same : row.1 = key
  · simp [same, hidden]
  · simp [same]

theorem foldl_modify_to_list [DecidableEq κ] (t : Table κ α) (f : α → α) (keys : List κ)
    (unique : keys.Nodup) : (keys.foldl (fun t key => t.modify key f) t).toList =
      t.toList.map fun row => if row.1 ∈ keys then (row.1, f row.2) else row := by
  induction keys generalizing t with
  | nil => simp
  | cons key keys ih =>
      rw [List.nodup_cons] at unique
      rw [List.foldl_cons, ih _ unique.2, modify, List.map_map]
      apply List.map_congr_left
      rintro ⟨k, v⟩ -
      by_cases same : k = key
      · subst same
        simp [unique.1]
      · simp [same]

theorem foldl_modify_keys [DecidableEq κ] (t : Table κ α) (f : α → α) (unique : t.keys.Nodup) :
    t.keys.foldl (fun t key => t.modify key f) t = t.mapValues f := by
  have rows := foldl_modify_to_list t f t.keys unique
  have whole : (t.toList.map fun row => if row.1 ∈ t.keys then (row.1, f row.2) else row) =
      t.toList.map fun row => (row.1, f row.2) := by
    apply List.map_congr_left
    intro row member
    exact if_pos (List.mem_map.mpr ⟨row, member, rfl⟩)
  exact congrArg Table.mk (rows.trans whole)

section Order

variable [DecidableEq κ] [LT κ]

theorem mem_place_keys [DecidableLT κ] (key other : κ) (value : α) (rows : List (κ × α)) :
    other ∈ (place key value rows).map Prod.fst ↔ other = key ∨ other ∈ rows.map Prod.fst := by
  rw [← find_is_some_iff, find_place, ← find_is_some_iff]
  by_cases same : key = other
  · simp [same]
  · simp [same, Ne.symm same]

omit [DecidableEq κ] in
theorem ordered_empty : (empty : Table κ α).Ordered := List.Pairwise.nil

theorem ordered_erase (t : Table κ α) (key : κ) (ordered : t.Ordered) : (t.erase key).Ordered := by
  have kept : List.Sublist (t.erase key).keys t.keys := List.Sublist.map _ List.filter_sublist
  exact List.Pairwise.sublist kept ordered

theorem ordered_erase_if [DecidableEq α] (t : Table κ α) (key : κ) (value : α)
    (ordered : t.Ordered) : (t.eraseIf key value).1.Ordered := by
  simp only [eraseIf]
  split
  · exact ordered_erase t key ordered
  · exact ordered

theorem ordered_modify (t : Table κ α) (key : κ) (f : α → α) (ordered : t.Ordered) :
    (t.modify key f).Ordered := by
  rw [Ordered, keys_modify]
  exact ordered

variable [IsStrictTotalOrder κ (· < ·)]

omit [DecidableEq κ] in
theorem keys_nodup (t : Table κ α) (ordered : t.Ordered) : t.keys.Nodup :=
  List.Pairwise.imp (fun {a b} (less : a < b) (same : a = b) => irrefl_of (· < ·) b (same ▸ less))
    ordered

theorem place_ordered [DecidableLT κ] (key : κ) (value : α) (rows : List (κ × α))
    (ordered : (rows.map Prod.fst).Pairwise (· < ·)) :
    ((place key value rows).map Prod.fst).Pairwise (· < ·) := by
  induction rows with
  | nil => simp [place]
  | cons row rows ih =>
      obtain ⟨k, v⟩ := row
      have head := (List.pairwise_cons.mp ordered).1
      have tail := (List.pairwise_cons.mp ordered).2
      by_cases same : k = key
      · rw [place, if_pos same, List.map_cons, ← same]
        exact ordered
      · by_cases before : key < k
        · rw [place, if_neg same, if_pos before, List.map_cons]
          refine List.pairwise_cons.mpr ⟨?_, ordered⟩
          intro other member
          rcases List.mem_cons.mp member with atHead | later
          · exact atHead ▸ before
          · exact trans_of (· < ·) before (head other later)
        · rw [place, if_neg same, if_neg before, List.map_cons]
          refine List.pairwise_cons.mpr ⟨?_, ih tail⟩
          intro other member
          rcases (mem_place_keys key other value rows).mp member with isKey | later
          · subst isKey
            rcases trichotomous_of (· < ·) k other with less | eq | greater
            · exact less
            · exact absurd eq same
            · exact absurd greater before
          · exact head other later

theorem ordered_insert [DecidableLT κ] (t : Table κ α) (key : κ) (value : α) (ordered : t.Ordered) :
    (t.insert key value).Ordered := place_ordered key value t.toList ordered

theorem mem_to_list_iff (t : Table κ α) (ordered : t.Ordered) (key : κ) (value : α) :
    (key, value) ∈ t.toList ↔ t.get? key = some value :=
  ⟨find_of_mem t.toList key value (keys_nodup t ordered), mem_of_find t.toList key value⟩

theorem eq_of_get? (t t' : Table κ α) (ordered : t.Ordered) (ordered' : t'.Ordered)
    (same : ∀ key, t.get? key = t'.get? key) : t = t' := by
  have : Std.Irrefl fun row row' : κ × α => row.1 < row'.1 := ⟨fun row => irrefl_of (· < ·) row.1⟩
  have : Std.Antisymm fun row row' : κ × α => row.1 < row'.1 :=
    ⟨fun _ _ less more => absurd more (asymm_of (· < ·) less)⟩
  refine congrArg Table.mk (List.Pairwise.eq_of_mem_iff (List.pairwise_map.mp ordered)
    (List.pairwise_map.mp ordered') fun row => ?_)
  rw [mem_to_list_iff t ordered row.1 row.2, mem_to_list_iff t' ordered' row.1 row.2, same]

theorem eq_of_map_values (t t' : Table κ α) (ordered : t.Ordered) (g : α → α)
    (same : t'.mapValues g = t.mapValues g)
    (settled : ∀ key value value', t.get? key = some value → t'.get? key = some value' →
      g value' = g value → value' = value) : t' = t := by
  have keys : t'.keys = t.keys := by rw [← keys_map_values t' g, same, keys_map_values]
  have ordered' : t'.Ordered := by rw [Ordered, keys]; exact ordered
  refine eq_of_get? t' t ordered' ordered fun key => ?_
  have shown : (t'.get? key).map g = (t.get? key).map g := by
    rw [← get?_map_values, same, get?_map_values]
  cases found : t.get? key with
  | none => simpa [found] using shown
  | some value =>
      rw [found] at shown
      obtain ⟨value', found', agree⟩ := Option.map_eq_some_iff.mp shown
      rw [found', settled key value value' found found' agree]

theorem map_values_same (t : Table κ α) (ordered : t.Ordered) (f : α → α)
    (fixed : ∀ key value, t.get? key = some value → f value = value) : t.mapValues f = t := by
  refine congrArg Table.mk ((List.map_congr_left fun row member => ?_).trans (List.map_id t.toList))
  exact congrArg (Prod.mk row.1) (fixed row.1 row.2 ((mem_to_list_iff t ordered row.1 row.2).mp member))

theorem keys_of_eq_singleton [DecidableEq α] (t : Table κ α) (ordered : t.Ordered) (key : κ)
    (value : α) (only : ∀ other, t.get? other = some value ↔ other = key) :
    t.keysOf value = [key] := by
  have member : ∀ other, other ∈ t.keysOf value ↔ other = key := by
    intro other
    rw [← only other, ← mem_to_list_iff t ordered]
    simp [keysOf]
  have unique : (t.keysOf value).Nodup :=
    List.Nodup.sublist (List.Sublist.map _ List.filter_sublist) (keys_nodup t ordered)
  obtain ⟨other, rows⟩ : ∃ other, t.keysOf value = [other] := by
    cases found : t.keysOf value with
    | nil => exact absurd ((member key).mpr rfl) (by simp [found])
    | cons first rest =>
        have firstKey : first = key := (member first).mp (by simp [found])
        cases rest with
        | nil => exact ⟨first, rfl⟩
        | cons second rest =>
            have secondKey : second = key := (member second).mp (by simp [found])
            rw [found, firstKey, secondKey] at unique
            simp at unique
  have same : other = key := (member other).mp (by simp [rows])
  rw [rows, same]

end Order

section Inverse

variable [DecidableEq κ]

-- The table finds a value under its own key and under no other.
def InverseOf (t : Table κ α) (key? : α → Option κ) : Prop :=
  ∀ key value, t.get? key = some value ↔ key? value = some key

theorem inverse_insert [DecidableEq α] [LT κ] [DecidableLT κ] (t : Table κ α) (key? : α → Option κ) (key : κ) (value : α)
    (inverse : t.InverseOf key?) (free : t.get? key = none) (absent : key? value = none) :
    (t.insert key value).InverseOf fun v => if v = value then some key else key? v := by
  intro other v
  rw [get?_insert]
  by_cases same : key = other
  · subst same
    have unheld : key? v ≠ some key := fun held => by
      rw [(inverse key v).mpr held] at free
      cases free
    by_cases isValue : v = value
    · simp [isValue]
    · simp [isValue, Ne.symm isValue, unheld]
  · by_cases isValue : v = value
    · subst isValue
      have unfound : t.get? other ≠ some v := fun found => by
        rw [(inverse other v).mp found] at absent
        cases absent
      simp [same, unfound]
    · simpa [same, isValue] using inverse other v

theorem inverse_erase_if [DecidableEq α] (t : Table κ α) (key? : α → Option κ) (key : κ) (value : α)
    (inverse : t.InverseOf key?) (held : key? value = some key) :
    (t.eraseIf key value).1.InverseOf fun v => if v = value then none else key? v := by
  intro other v
  have found := (inverse key value).mpr held
  rw [get?_erase_if]
  by_cases same : key = other
  · subst same
    by_cases isValue : v = value
    · simp [found, isValue]
    · have unheld : key? v ≠ some key := fun heldToo => by
        have foundToo := (inverse key v).mpr heldToo
        rw [found] at foundToo
        exact isValue (Option.some.inj foundToo).symm
      simp [found, isValue, unheld]
  · by_cases isValue : v = value
    · subst isValue
      have unfound : t.get? other ≠ some v := fun foundToo => by
        have heldToo := (inverse other v).mp foundToo
        rw [held] at heldToo
        exact same (Option.some.inj heldToo)
      simp [same, unfound]
    · simpa [same, isValue] using inverse other v

theorem eq_of_inverse [LT κ] [IsStrictTotalOrder κ (· < ·)] (t t' : Table κ α) (key? : α → Option κ)
    (ordered : t.Ordered) (ordered' : t'.Ordered) (inverse : t.InverseOf key?)
    (inverse' : t'.InverseOf key?) : t = t' :=
  eq_of_get? t t' ordered ordered' fun key =>
    Option.ext fun value => (inverse key value).trans (inverse' key value).symm

theorem inverse_unique (t : Table κ α) (key? : α → Option κ) (inverse : t.InverseOf key?)
    (key : κ) (v w : α) (left : key? v = some key) (right : key? w = some key) : v = w := by
  have found := (inverse key v).mpr left
  rw [(inverse key w).mpr right] at found
  exact (Option.some.inj found).symm

end Inverse

section Rekey

variable [DecidableEq κ] [DecidableEq α] [LT κ] [DecidableLT κ]

-- Takes a value from the key it had to the key it gets; another value that has meanwhile come to
-- stand under the old key stays.
def rekey (before after : α → κ) (t : Table κ α) (value : α) : Table κ α :=
  if before value = after value then t
  else (t.eraseIf (before value) value).1.insert (after value) value

-- Between two steps of a change of keys: `done` have their new keys. A value that still waits may
-- have lost its old key, but only to a value that is done.
structure Rekeying (before after : α → κ) (t : Table κ α) (done todo : List α) : Prop where
  sound : ∀ key value, t.get? key = some value →
    (value ∈ done ∧ key = after value) ∨ (value ∈ todo ∧ key = before value)
  placed : ∀ value ∈ done, t.get? (after value) = some value
  waiting : ∀ value ∈ todo, t.get? (before value) = some value ∨
    ∃ other ∈ done, after other = before value

theorem get?_rekey (before after : α → κ) (t : Table κ α) (value : α) (key : κ) :
    (rekey before after t value).get? key =
      if before value = after value then t.get? key
      else if after value = key then some value
      else if before value = key ∧ t.get? (before value) = some value then none
      else t.get? key := by
  simp only [rekey]
  split
  · rfl
  · rw [get?_insert, get?_erase_if]

theorem get?_rekey_self (before after : α → κ) (t : Table κ α) (value : α)
    (held : before value = after value → t.get? (before value) = some value) :
    (rekey before after t value).get? (after value) = some value := by
  rw [get?_rekey]
  by_cases same : before value = after value
  · rw [if_pos same, ← same, held same]
  · rw [if_neg same, if_pos rfl]

theorem get?_rekey_kept (before after : α → κ) (t : Table κ α) (value other : α) (key : κ)
    (found : t.get? key = some other) (differ : other ≠ value) (apart : after value ≠ key) :
    (rekey before after t value).get? key = some other := by
  have unerased : ¬(before value = key ∧ t.get? (before value) = some value) := by
    rintro ⟨rfl, held⟩
    exact differ (Option.some.inj (found.symm.trans held))
  rw [get?_rekey, if_neg apart, if_neg unerased, found, ite_self]

theorem of_get?_rekey (before after : α → κ) (t : Table κ α) (value other : α) (key : κ)
    (found : (rekey before after t value).get? key = some other) :
    other = value ∧ key = after value ∨
      t.get? key = some other ∧ (other = value → key = before value → key = after value) := by
  rw [get?_rekey] at found
  by_cases same : before value = after value
  · rw [if_pos same] at found
    exact Or.inr ⟨found, fun _ old => old.trans same⟩
  · rw [if_neg same] at found
    by_cases isNew : after value = key
    · rw [if_pos isNew] at found
      exact Or.inl ⟨(Option.some.inj found).symm, isNew.symm⟩
    · rw [if_neg isNew] at found
      obtain ⟨unerased, still⟩ := Option.ite_none_left_eq_some.mp found
      refine Or.inr ⟨still, ?_⟩
      rintro rfl rfl
      exact absurd ⟨rfl, still⟩ unerased

theorem rekeying_step (before after : α → κ) (t : Table κ α) (done todo : List α) (value : α)
    (state : Rekeying before after t done (value :: todo)) (fresh : value ∉ todo)
    (apart : ∀ other ∈ done, after other ≠ after value) :
    Rekeying before after (rekey before after t value) (value :: done) todo := by
  refine ⟨?_, ?_, ?_⟩
  · intro key other found
    rcases of_get?_rekey before after t value other key found with ⟨rfl, isNew⟩ | ⟨found, stays⟩
    · exact Or.inl ⟨List.mem_cons_self, isNew⟩
    · rcases state.sound key other found with isDone | ⟨member, isOld⟩
      · exact Or.inl ⟨List.mem_cons_of_mem _ isDone.1, isDone.2⟩
      · rcases List.mem_cons.mp member with rfl | later
        · exact Or.inl ⟨List.mem_cons_self, stays rfl isOld⟩
        · exact Or.inr ⟨later, isOld⟩
  · intro other member
    rcases List.mem_cons.mp member with rfl | earlier
    · refine get?_rekey_self before after t other fun same => ?_
      rcases state.waiting other List.mem_cons_self with held | ⟨taker, takerDone, taken⟩
      · exact held
      · exact absurd (taken.trans same) (apart taker takerDone)
    · have differ : other ≠ value := fun same => apart other earlier (congrArg after same)
      exact get?_rekey_kept before after t value other _ (state.placed other earlier) differ
        (Ne.symm (apart other earlier))
  · intro other member
    rcases state.waiting other (List.mem_cons_of_mem _ member) with held | ⟨taker, takerDone, taken⟩
    · by_cases isNew : after value = before other
      · exact Or.inr ⟨value, List.mem_cons_self, isNew⟩
      · have differ : other ≠ value := fun same => fresh (same ▸ member)
        exact Or.inl (get?_rekey_kept before after t value other _ held differ isNew)
    · exact Or.inr ⟨taker, List.mem_cons_of_mem _ takerDone, taken⟩

theorem rekeying_foldl (before after : α → κ) (t : Table κ α) (done todo : List α)
    (state : Rekeying before after t done todo) (unique : todo.Nodup)
    (apart : ∀ v ∈ done, ∀ w ∈ todo, after v ≠ after w)
    (distinct : ∀ v ∈ todo, ∀ w ∈ todo, after v = after w → v = w) :
    Rekeying before after (todo.foldl (rekey before after) t) (todo.reverse ++ done) [] := by
  induction todo generalizing t done with
  | nil => simpa using state
  | cons value todo ih =>
      rw [List.nodup_cons] at unique
      have stepped := rekeying_step before after t done todo value state unique.1
        (fun other member => apart other member value List.mem_cons_self)
      have apart' : ∀ v ∈ value :: done, ∀ w ∈ todo, after v ≠ after w := by
        intro v member w later same
        rcases List.mem_cons.mp member with isValue | earlier
        · subst isValue
          have eq := distinct v List.mem_cons_self w (List.mem_cons_of_mem _ later) same
          exact unique.1 (eq ▸ later)
        · exact apart v earlier w (List.mem_cons_of_mem _ later) same
      have rest := ih (rekey before after t value) (value :: done) stepped unique.2 apart'
        (fun v isLater w later => distinct v (List.mem_cons_of_mem _ isLater) w
          (List.mem_cons_of_mem _ later))
      simpa using rest

theorem get?_foldl_rekey (before after : α → κ) (t : Table κ α) (values : List α)
    (exact_before : ∀ key value, t.get? key = some value ↔ value ∈ values ∧ key = before value)
    (unique : values.Nodup)
    (distinct : ∀ v ∈ values, ∀ w ∈ values, after v = after w → v = w) (key : κ) (value : α) :
    (values.foldl (rekey before after) t).get? key = some value ↔
      value ∈ values ∧ key = after value := by
  have start : Rekeying before after t [] values :=
    ⟨fun key value found => Or.inr ((exact_before key value).mp found), by simp,
      fun value member => Or.inl ((exact_before _ value).mpr ⟨member, rfl⟩)⟩
  have finish := rekeying_foldl before after t [] values start unique (by simp) distinct
  constructor
  · intro found
    rcases finish.sound key value found with isDone | isWaiting
    · exact ⟨by simpa using isDone.1, isDone.2⟩
    · simp at isWaiting
  · rintro ⟨member, rfl⟩
    exact finish.placed value (by simpa using member)

theorem ordered_foldl_rekey [IsStrictTotalOrder κ (· < ·)] (before after : α → κ) (t : Table κ α)
    (values : List α) (ordered : t.Ordered) : (values.foldl (rekey before after) t).Ordered := by
  induction values generalizing t with
  | nil => exact ordered
  | cons value values ih =>
      apply ih
      simp only [rekey]
      split
      · exact ordered
      · exact ordered_insert _ _ _ (ordered_erase_if _ _ _ ordered)

end Rekey

end Table

end JvmEdit
