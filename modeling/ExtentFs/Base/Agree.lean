import ExtentFs.Base.Checked

namespace Base

/-- Two computations that fail alike or return related values. -/
inductive Agree {ε α β : Type*} (R : α → β → Prop) : Except ε α → Except ε β → Prop
  | ok {a : α} {b : β} (related : R a b) : Agree R (.ok a) (.ok b)
  | error {e : ε} : Agree R (.error e) (.error e)

namespace Agree

variable {ε α β α' β' γ : Type} {R : α → β → Prop} {S : α' → β' → Prop}
  {x : Except ε α} {y : Except ε β} {k : α → Except ε α'} {l : β → Except ε β'}

theorem pure {a : α} {b : β} (related : R a b) : Agree R (Pure.pure a : Except ε α) (Pure.pure b) :=
  .ok related

theorem refl (x : Except ε α) : Agree Eq x x := by
  cases x with
  | ok a => exact ok rfl
  | error e => exact error

theorem eq {x y : Except ε α} (agree : Agree Eq x y) : x = y := by
  cases agree with
  | ok related => exact congrArg Except.ok related
  | error => rfl

theorem mono {R' : α → β → Prop} (agree : Agree R x y) (weaker : ∀ a b, R a b → R' a b) :
    Agree R' x y := by
  cases agree with
  | ok related => exact ok (weaker _ _ related)
  | error => exact error

theorem of_ok (agree : Agree R x y) {a : α} (returned : x = .ok a) : ∃ b, y = .ok b ∧ R a b := by
  cases agree with
  | ok related =>
    cases returned
    exact ⟨_, rfl, related⟩
  | error => cases returned

theorem of_ok_right (agree : Agree R x y) {b : β} (returned : y = .ok b) : ∃ a, x = .ok a ∧ R a b := by
  cases agree with
  | ok related =>
    cases returned
    exact ⟨_, rfl, related⟩
  | error => cases returned

theorem bind (first : Agree R x y) (rest : ∀ a b, R a b → Agree S (k a) (l b)) :
    Agree S (x >>= k) (y >>= l) := by
  cases first with
  | ok related => exact rest _ _ related
  | error => exact error

/-- Both go on with what one computation returns. -/
theorem next {x : Except ε γ} {k : γ → Except ε α} {l : γ → Except ε β}
    (rest : ∀ c, x = .ok c → Agree R (k c) (l c)) : Agree R (x >>= k) (x >>= l) := by
  cases x with
  | ok c => exact rest c rfl
  | error e => exact error

theorem ite {p : Prop} [Decidable p] {x' : Except ε α} {y' : Except ε β} (yes : p → Agree R x y)
    (no : ¬ p → Agree R x' y') : Agree R (if p then x else x') (if p then y else y') := by
  by_cases holds : p
  · rw [if_pos holds, if_pos holds]
    exact yes holds
  · rw [if_neg holds, if_neg holds]
    exact no holds

/-- The form that a bind takes after a conditional whose branches both go on. -/
theorem jump {p : Prop} [Decidable p] {x' : Except ε α} {y' : Except ε β}
    (first : Agree R (if p then x else x') (if p then y else y'))
    (rest : ∀ a b, R a b → Agree S (k a) (l b)) :
    Agree S (if p then x >>= k else x' >>= k) (if p then y >>= l else y' >>= l) := by
  by_cases holds : p
  · rw [if_pos holds, if_pos holds] at first ⊢
    exact bind first rest
  · rw [if_neg holds, if_neg holds] at first ⊢
    exact bind first rest

theorem foldlM {f : α → γ → Except ε α} {g : β → γ → Except ε β} {l : List γ} {a : α} {b : β}
    (each : ∀ a b c, R a b → Agree R (f a c) (g b c)) (start : R a b) :
    Agree R (l.foldlM f a) (l.foldlM g b) := by
  induction l generalizing a b with
  | nil => exact pure start
  | cons c l ih =>
    rw [List.foldlM_cons, List.foldlM_cons]
    exact bind (each a b c start) fun a b related => ih related

end Agree

end Base
