import Mathlib.Data.List.Forall2
set_option autoImplicit false

namespace JvmEdit

theorem except_bind {ε α β : Type} (x : Except ε α) (f : α → Except ε β) (r : β)
    (done : (x >>= f) = .ok r) : ∃ a, x = .ok a ∧ f a = .ok r := by
  cases x with
  | error e => cases done
  | ok a => exact ⟨a, rfl, done⟩

theorem except_ok {ε α : Type} (x : Except ε α) (succeeds : x.toOption.isSome = true) :
    ∃ a, x = .ok a := by
  cases x with
  | error e => cases succeeds
  | ok a => exact ⟨a, rfl⟩

theorem except_shown {ε α β : Type} (x : Except ε α) (f : α → β) (r : β) (shown : x.toOption.map f = some r) :
    ∃ a, x = .ok a ∧ f a = r := by
  cases x with
  | error e => cases shown
  | ok a => exact ⟨a, rfl, Option.some.inj shown⟩

theorem except_bind_error {ε α β : Type} (x : Except ε α) (f : α → Except ε β) (err : ε) :
    (x >>= f) = .error err ↔ x = .error err ∨ ∃ a, x = .ok a ∧ f a = .error err := by
  cases x with
  | error e => simp [bind, Except.bind]
  | ok a => simp [bind, Except.bind]

theorem except_map {ε α β : Type} (f : α → β) (x : Except ε α) (r : β) (done : f <$> x = .ok r) :
    ∃ a, x = .ok a ∧ f a = r := by
  cases x with
  | error e => cases done
  | ok a => exact ⟨a, rfl, Except.ok.inj done⟩

theorem except_map_m {ε α β : Type} (f : α → Except ε β) (xs : List α) (ys : List β)
    (done : xs.mapM f = .ok ys) : List.Forall₂ (fun x y => f x = .ok y) xs ys := by
  induction xs generalizing ys with
  | nil =>
      cases done
      exact .nil
  | cons x xs ih =>
      rw [List.mapM_cons] at done
      obtain ⟨y, first, rest⟩ := except_bind _ _ _ done
      obtain ⟨ys', later, isList⟩ := except_bind _ _ _ rest
      cases isList
      exact .cons first (ih ys' later)

theorem except_map_m_map {ε α β : Type} (f : α → Except ε β) (g : α → β) (xs : List α) (ys : List β)
    (each : ∀ x y, f x = .ok y → y = g x) (done : xs.mapM f = .ok ys) : ys = xs.map g := by
  have ran := except_map_m f xs ys done
  clear done
  induction ran with
  | nil => rfl
  | cons first _ ih => rw [List.map_cons, each _ _ first, ih]

theorem mem_except_map_m {ε α β : Type} (f : α → Except ε β) (xs : List α) (ys : List β)
    (done : xs.mapM f = .ok ys) (y : β) : y ∈ ys ↔ ∃ x ∈ xs, f x = .ok y := by
  have ran := except_map_m f xs ys done
  clear done
  induction ran with
  | nil => simp
  | cons first _ ih => simp [ih, first, eq_comm]

theorem ok_of_except_map_m {ε α β : Type} (f : α → Except ε β) (xs : List α) (ys : List β)
    (done : xs.mapM f = .ok ys) (x : α) (member : x ∈ xs) : ∃ y, f x = .ok y := by
  have ran := except_map_m f xs ys done
  clear done
  induction ran with
  | nil => cases member
  | cons first _ ih =>
      rcases List.mem_cons.mp member with rfl | later
      · exact ⟨_, first⟩
      · exact ih later

theorem except_map_m_error {ε α β : Type} (f : α → Except ε β) (xs : List α) (e : ε)
    (failed : xs.mapM f = .error e) : ∃ x ∈ xs, f x = .error e := by
  induction xs with
  | nil => cases failed
  | cons x xs ih =>
      rw [List.mapM_cons] at failed
      cases first : f x with
      | error e' =>
          rw [first] at failed
          cases failed
          exact ⟨x, List.mem_cons_self, first⟩
      | ok y =>
          rw [first] at failed
          cases rest : xs.mapM f with
          | error e' =>
              rw [rest] at failed
              cases failed
              obtain ⟨other, member, fault⟩ := ih rest
              exact ⟨other, List.mem_cons_of_mem _ member, fault⟩
          | ok ys =>
              rw [rest] at failed
              cases failed

theorem map_error_bind {ε α β : Type} (h : ε → ε) (x : Except ε α) (f : α → Except ε β) :
    (x >>= f).mapError h = x.mapError h >>= fun a => (f a).mapError h := by
  cases x <;> rfl

theorem map_error_bind_same {ε α β : Type} (h : ε → ε) (x : Except ε α) (f : α → Except ε β)
    (first : x.mapError h = x) (rest : ∀ a, (f a).mapError h = f a) :
    (x >>= f).mapError h = x >>= f := by
  rw [map_error_bind, first, funext rest]

theorem map_error_map_m_same {ε α β : Type} (h : ε → ε) (f : α → Except ε β)
    (each : ∀ a, (f a).mapError h = f a) (xs : List α) : (xs.mapM f).mapError h = xs.mapM f := by
  induction xs with
  | nil => rfl
  | cons x xs ih =>
      rw [List.mapM_cons]
      apply map_error_bind_same h _ _ (each x)
      intro y
      apply map_error_bind_same h _ _ ih
      exact fun _ => rfl

end JvmEdit
