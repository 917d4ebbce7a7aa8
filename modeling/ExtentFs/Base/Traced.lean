import ExtentFs.Base.Checked

namespace Base

/-- A computation that may fail, with what it has logged by then. -/
structure Traced (ω ε : Type*) (α : Type) where
  log : List ω
  out : Except ε α

namespace Traced

variable {ω ε : Type*} {α β : Type}

def tell (e : ω) : Traced ω ε Unit := ⟨[e], .ok ()⟩

def lift (x : Except ε α) : Traced ω ε α := ⟨[], x⟩

def andThen (x : Traced ω ε α) (f : α → Traced ω ε β) : Traced ω ε β :=
  match x with
  | ⟨log, .ok a⟩ => ⟨log ++ (f a).log, (f a).out⟩
  | ⟨log, .error e⟩ => ⟨log, .error e⟩

instance : Monad (Traced ω ε) where
  pure a := ⟨[], .ok a⟩
  bind := andThen

variable {x : Traced ω ε α} {f : α → Traced ω ε β} {P : ω → Prop}

@[simp] theorem out_pure {a : α} : (pure a : Traced ω ε α).out = .ok a := rfl

@[simp] theorem out_tell {e : ω} : (tell e : Traced ω ε Unit).out = .ok () := rfl

@[simp] theorem out_lift {y : Except ε α} : (lift y : Traced ω ε α).out = y := rfl

theorem out_bind : (x >>= f).out = x.out >>= fun a => (f a).out := by
  obtain ⟨log, out⟩ := x
  cases out <;> rfl

/-- What runs before a step that logs nothing and succeeds does not count. -/
theorem lift_bind {a : α} : (lift (.ok a) >>= f : Traced ω ε β) = f a := rfl

theorem pure_andThen {a : α} : (pure a >>= f : Traced ω ε β) = f a := rfl

theorem tell_bind {e : ω} {y : Traced ω ε β} : (tell e >>= fun _ => y).log = e :: y.log := rfl

theorem log_bind_quiet (quiet : ∀ a, (f a).log = []) : (x >>= f).log = x.log := by
  obtain ⟨log, out⟩ := x
  cases out with
  | ok a =>
    show log ++ (f a).log = log
    rw [quiet, List.append_nil]
  | error fault => rfl

/-- Every event of a log has a property. -/
def Logs (P : ω → Prop) (x : Traced ω ε α) : Prop := ∀ e ∈ x.log, P e

namespace Logs

theorem pure {a : α} : Logs P (Pure.pure a : Traced ω ε α) := by
  intro e member
  cases member

theorem lift {y : Except ε α} : Logs P (Traced.lift y : Traced ω ε α) := by
  intro e member
  cases member

theorem tell {e : ω} (holds : P e) : Logs P (Traced.tell e : Traced ω ε Unit) := by
  intro e' member
  rw [List.mem_singleton.mp member]
  exact holds

theorem bind (first : Logs P x) (rest : ∀ a, x.out = .ok a → Logs P (f a)) : Logs P (x >>= f) := by
  intro e member
  obtain ⟨log, out⟩ := x
  cases out with
  | ok a =>
    rcases List.mem_append.mp member with before | after
    · exact first e before
    · exact rest a rfl e after
  | error fault => exact first e member

theorem ite {c : Prop} [Decidable c] {x y : Traced ω ε α} (yes : c → Logs P x) (no : ¬ c → Logs P y) :
    Logs P (if c then x else y) := by
  split
  · exact yes ‹_›
  · exact no ‹_›

end Logs

end Traced

end Base
