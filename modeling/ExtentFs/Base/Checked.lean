import Mathlib.Data.List.Basic
import Mathlib.Tactic.Common

namespace Base

universe u v w

variable {ε : Type u} {α β : Type v} {γ : Type w}

theorem bind_eq_ok {x : Except ε α} {f : α → Except ε β} {b : β} :
    (x >>= f) = .ok b ↔ ∃ a, x = .ok a ∧ f a = .ok b := by
  cases x with
  | error e => simp [Bind.bind, Except.bind]
  | ok a => simp [Bind.bind, Except.bind]

theorem pure_eq_ok {a b : α} : (pure a : Except ε α) = .ok b ↔ a = b := by
  simp [Pure.pure, Except.pure]

@[simp] theorem ok_bind (a : α) (f : α → Except ε β) : (Except.ok a >>= f) = f a := rfl

@[simp] theorem error_bind (e : ε) (f : α → Except ε β) :
    ((Except.error e : Except ε α) >>= f) = .error e := rfl

theorem guard_eq_ok {p : Prop} [Decidable p] {x : Except ε α} {e : ε} {a : α} :
    (if p then x else .error e) = .ok a ↔ p ∧ x = .ok a := by
  by_cases h : p <;> simp [h]

/-- A condition on the result of a computation that returns. -/
def Yields (x : Except ε α) (P : α → Prop) : Prop := ∀ a, x = .ok a → P a

instance {x : Except ε α} {P : α → Prop} [DecidablePred P] : Decidable (Yields x P) :=
  match x with
  | .ok a => decidable_of_iff (P a) ⟨fun holds _ same => Except.ok.inj same ▸ holds, fun h => h a rfl⟩
  | .error _ => .isTrue nofun

instance decidableYielded {x : Except ε α} {P : α → Prop} [DecidablePred P] :
    Decidable (∃ a, x = .ok a ∧ P a) :=
  match x with
  | .ok a => decidable_of_iff (P a)
      ⟨fun holds => ⟨a, rfl, holds⟩, fun ⟨_, same, holds⟩ => by cases same; exact holds⟩
  | .error _ => .isFalse nofun

instance decidableReturns {x : Except ε (Option α)} {P : α → Prop} [DecidablePred P] :
    Decidable (∃ a, x = .ok (some a) ∧ P a) :=
  match x with
  | .ok (some a) => decidable_of_iff (P a)
      ⟨fun holds => ⟨a, rfl, holds⟩, fun ⟨_, same, holds⟩ => by cases same; exact holds⟩
  | .ok none => .isFalse nofun
  | .error _ => .isFalse nofun

instance decidableAccepts {x : Except ε (Option α)} : Decidable (∃ a, x = .ok (some a)) :=
  decidable_of_iff (∃ a, x = .ok (some a) ∧ True) (by simp)

instance decidableFails {x : Except ε α} {P : ε → Prop} [DecidablePred P] : Decidable (∃ e, x = .error e ∧ P e) :=
  match x with
  | .ok _ => .isFalse nofun
  | .error e => decidable_of_iff (P e)
      ⟨fun holds => ⟨e, rfl, holds⟩, fun ⟨_, same, holds⟩ => by cases same; exact holds⟩

section Search

variable {p : α → Except ε (Option β)}

/-- A nested search visits the same places as one search over the flattened list. -/
theorem findSomeM?_flatMap (l : List γ) (f : γ → List α) :
    (l.flatMap f).findSomeM? p = l.findSomeM? fun c => (f c).findSomeM? p := by
  have append (xs ys : List α) : (xs ++ ys).findSomeM? p =
      xs.findSomeM? p >>= fun | some b => pure (some b) | none => ys.findSomeM? p := by
    induction xs with
    | nil => rfl
    | cons x xs ih =>
      simp only [List.cons_append, List.findSomeM?_cons, ih]
      cases p x with
      | error e => rfl
      | ok r => cases r <;> rfl
  induction l with
  | nil => rfl
  | cons c l ih =>
    simp only [List.flatMap_cons, List.findSomeM?_cons, append, ih]
    rfl

theorem findSomeM?_congr {q : α → Except ε (Option β)} {l : List α}
    (same : ∀ a ∈ l, p a = q a) : l.findSomeM? p = l.findSomeM? q := by
  induction l with
  | nil => rfl
  | cons a l ih =>
    have tail : l.findSomeM? p = l.findSomeM? q := ih fun b member => same b (by simp [member])
    simp only [List.findSomeM?_cons, same a (by simp), tail]

theorem findSomeM?_map {l : List γ} {f : γ → α} :
    (l.map f).findSomeM? p = l.findSomeM? fun c => p (f c) := by
  induction l with
  | nil => rfl
  | cons c l ih => simp only [List.map_cons, List.findSomeM?_cons, ih]

/-- A search whose tests return at least as often as before, with images of what they found. -/
theorem findSomeM?_transfer {δ : Type v} {q : α → Except ε (Option δ)} {g : β → δ} {l : List α}
    {r : Option β} (transfers : ∀ a ∈ l, ∀ s, p a = .ok s → q a = .ok (s.map g))
    (h : l.findSomeM? p = .ok r) : l.findSomeM? q = .ok (r.map g) := by
  induction l with
  | nil =>
    cases h
    rfl
  | cons a l ih =>
    rw [List.findSomeM?_cons, bind_eq_ok] at h ⊢
    obtain ⟨s, test, rest⟩ := h
    refine ⟨s.map g, transfers a (by simp) s test, ?_⟩
    cases s with
    | some b =>
      cases rest
      rfl
    | none => exact ih (fun a member => transfers a (by simp [member])) rest

theorem findSomeM?_refine {q : α → Except ε (Option β)} {l : List α} {r : Option β}
    (refines : ∀ a ∈ l, ∀ s, p a = .ok s → q a = .ok s) (h : l.findSomeM? p = .ok r) :
    l.findSomeM? q = .ok r := by
  have same (s : Option β) : s.map id = s := Option.map_id_apply
  rw [← same r]
  apply findSomeM?_transfer (fun a member s test => ?_) h
  rw [same s]
  exact refines a member s test

theorem findSomeM?_ok {g : α → Option β} {l : List α} (total : ∀ a ∈ l, p a = .ok (g a)) :
    l.findSomeM? p = .ok (l.findSome? g) := by
  rw [findSomeM?_congr total]
  exact List.findSomeM?_pure

theorem findSomeM?_some {l : List α} {b : β} (h : l.findSomeM? p = .ok (some b)) :
    ∃ a ∈ l, p a = .ok (some b) := by
  induction l with
  | nil => cases h
  | cons a l ih =>
    rw [List.findSomeM?_cons, bind_eq_ok] at h
    obtain ⟨r, test, rest⟩ := h
    cases r with
    | some c =>
      cases rest
      exact ⟨a, by simp, test⟩
    | none =>
      obtain ⟨a', member, test'⟩ := ih rest
      exact ⟨a', by simp [member], test'⟩

theorem findSomeM?_none {l : List α} (h : l.findSomeM? p = .ok none) :
    ∀ a ∈ l, p a = .ok none := by
  induction l with
  | nil => simp
  | cons a l ih =>
    rw [List.findSomeM?_cons, bind_eq_ok] at h
    obtain ⟨r, test, rest⟩ := h
    cases r with
    | some c => cases rest
    | none =>
      intro a' member
      rcases List.mem_cons.mp member with rfl | member
      · exact test
      · exact ih rest a' member

end Search

theorem flatMapM_ok {f : γ → Except ε (List β)} {g : γ → List β} {l : List γ}
    (total : ∀ c ∈ l, f c = .ok (g c)) : l.flatMapM f = .ok (l.flatMap g) := by
  induction l with
  | nil => rfl
  | cons c l ih =>
    rw [List.flatMapM_cons, total c (by simp), ok_bind, ih fun c member => total c (by simp [member])]
    rfl

section Yields

variable {P : α → Prop} {Q : β → Prop} {x x' : Except ε α} {f : α → Except ε β}

theorem Yields.ok {a : α} (holds : P a) : Yields (.ok a : Except ε α) P := by
  intro b same
  cases same
  exact holds

theorem Yields.pure {a : α} (holds : P a) : Yields (Pure.pure a : Except ε α) P := Yields.ok holds

theorem Yields.error {e : ε} : Yields (.error e : Except ε α) P := by
  intro a same
  cases same

theorem Yields.bind (first : Yields x P) (rest : ∀ a, P a → Yields (f a) Q) : Yields (x >>= f) Q := by
  intro b returned
  obtain ⟨a, value, returned⟩ := bind_eq_ok.mp returned
  exact rest a (first a value) b returned

theorem Yields.next (rest : ∀ a, x = .ok a → Yields (f a) Q) : Yields (x >>= f) Q := by
  intro b returned
  obtain ⟨a, value, returned⟩ := bind_eq_ok.mp returned
  exact rest a value b returned

theorem Yields.ite {p : Prop} [Decidable p] (yes : p → Yields x P) (no : ¬ p → Yields x' P) :
    Yields (if p then x else x') P := by
  by_cases holds : p
  · rw [if_pos holds]
    exact yes holds
  · rw [if_neg holds]
    exact no holds

theorem Yields.jump {p : Prop} [Decidable p] (first : Yields (if p then x else x') P)
    (rest : ∀ a, P a → Yields (f a) Q) : Yields (if p then x >>= f else x' >>= f) Q := by
  by_cases holds : p
  · rw [if_pos holds] at first ⊢
    exact first.bind rest
  · rw [if_neg holds] at first ⊢
    exact first.bind rest

theorem Yields.foldlM {g : α → γ → Except ε α} {l : List γ} {a : α}
    (each : ∀ a c, P a → Yields (g a c) P) (start : P a) : Yields (l.foldlM g a) P := by
  induction l generalizing a with
  | nil => exact .pure start
  | cons c l ih =>
    rw [List.foldlM_cons]
    exact (each a c start).bind fun a holds => ih holds

end Yields

section Avoids

variable {bad : ε → Prop}

/-- A computation that does not fail in one of some ways. -/
def Avoids (bad : ε → Prop) (x : Except ε α) : Prop := ∀ e, x = .error e → ¬ bad e

theorem Avoids.ok (a : α) : Avoids bad (.ok a : Except ε α) := by
  intro e failed
  cases failed

theorem Avoids.error {e : ε} (other : ¬ bad e) : Avoids bad (.error e : Except ε α) := by
  intro e' failed
  cases failed
  exact other

theorem Avoids.bind {x : Except ε α} {f : α → Except ε β} (first : Avoids bad x)
    (next : ∀ a, x = .ok a → Avoids bad (f a)) : Avoids bad (x >>= f) := by
  cases x with
  | error e => exact fun e' failed => first e' (by cases failed; rfl)
  | ok a => exact next a rfl

theorem Avoids.ite {p : Prop} [Decidable p] {x y : Except ε α} (holds : p → Avoids bad x)
    (fails : ¬ p → Avoids bad y) : Avoids bad (if p then x else y) := by
  by_cases h : p
  · rw [if_pos h]
    exact holds h
  · rw [if_neg h]
    exact fails h

theorem Avoids.findSomeM? {p : α → Except ε (Option β)} {l : List α}
    (each : ∀ a ∈ l, Avoids bad (p a)) : Avoids bad (l.findSomeM? p) := by
  induction l with
  | nil => exact .ok none
  | cons a l ih =>
    rw [List.findSomeM?_cons]
    refine .bind (each a (by simp)) fun r _ => ?_
    cases r with
    | some b => exact .ok _
    | none => exact ih fun a member => each a (by simp [member])

theorem Avoids.foldlM {f : β → α → Except ε β} {l : List α} {b : β}
    (each : ∀ b, ∀ a ∈ l, Avoids bad (f b a)) : Avoids bad (l.foldlM f b) := by
  induction l generalizing b with
  | nil => exact .ok b
  | cons a l ih =>
    rw [List.foldlM_cons]
    exact .bind (each b a (by simp)) fun b _ => ih fun b a member => each b a (by simp [member])

theorem Avoids.flatMapM {f : γ → Except ε (List β)} {l : List γ}
    (each : ∀ c ∈ l, Avoids bad (f c)) : Avoids bad (l.flatMapM f) := by
  induction l with
  | nil => exact .ok []
  | cons c l ih =>
    rw [List.flatMapM_cons]
    refine .bind (each c (by simp)) fun bs _ => ?_
    exact .bind (ih fun c member => each c (by simp [member])) fun rest _ => .ok _

end Avoids

end Base
