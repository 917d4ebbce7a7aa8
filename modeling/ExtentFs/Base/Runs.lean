import Mathlib.Tactic.Common

namespace Base

structure TransitionSystem (State Label : Type*) where
  Initial : State → Prop
  Step : State → Label → State → Prop

namespace TransitionSystem

variable {State Label : Type*} (S : TransitionSystem State Label)

/-- The states at the end of the runs whose steps all satisfy a condition on the state
    before the step and its label. -/
inductive Reaches (guard : State → Label → Prop) : State → Prop
  | initial {s : State} (start : S.Initial s) : Reaches guard s
  | step {s t : State} {l : Label} (run : Reaches guard s) (allowed : guard s l)
      (step : S.Step s l t) : Reaches guard t

variable {S} {guard guard' : State → Label → Prop} {s : State}

theorem Reaches.invariant (run : S.Reaches guard s) (Inv : State → Prop)
    (base : ∀ s, S.Initial s → Inv s)
    (preserve : ∀ s l t, Inv s → guard s l → S.Step s l t → Inv t) : Inv s := by
  induction run with
  | initial start => exact base _ start
  | step _ allowed step ih => exact preserve _ _ _ ih allowed step

/-- An invariant whose steps start where all runs are already known to lead. -/
theorem Reaches.relative (run : S.Reaches guard s) {Known : State → Prop}
    (known : ∀ t, S.Reaches guard t → Known t) (Inv : State → Prop)
    (base : ∀ s, S.Initial s → Inv s)
    (preserve : ∀ s l t, Known s → Inv s → guard s l → S.Step s l t → Inv t) : Inv s := by
  induction run with
  | initial start => exact base _ start
  | step run allowed step ih => exact preserve _ _ _ (known _ run) ih allowed step

theorem Reaches.mono (run : S.Reaches guard s) (weaker : ∀ s l, guard s l → guard' s l) :
    S.Reaches guard' s := by
  induction run with
  | initial start => exact .initial start
  | step _ allowed step ih => exact .step ih (weaker _ _ allowed) step

/-- A run is followed, step by step or standing still, by a run of another system. -/
theorem Reaches.simulate {State' Label' : Type*} {T : TransitionSystem State' Label'}
    {allow : State' → Label' → Prop} (run : S.Reaches guard s) (Related : State → State' → Prop)
    (base : ∀ s, S.Initial s → ∃ t, T.Initial t ∧ Related s t)
    (follow : ∀ s l s' t, T.Reaches allow t → Related s t → guard s l → S.Step s l s' →
      Related s' t ∨ ∃ l' t', allow t l' ∧ T.Step t l' t' ∧ Related s' t') :
    ∃ t, T.Reaches allow t ∧ Related s t := by
  induction run with
  | initial start =>
    obtain ⟨t, first, related⟩ := base _ start
    exact ⟨t, .initial first, related⟩
  | step _ allowed step ih =>
    obtain ⟨t, reached, related⟩ := ih
    rcases follow _ _ _ t reached related allowed step with still | ⟨l', t', allowed', step', related'⟩
    · exact ⟨t, reached, still⟩
    · exact ⟨t', .step reached allowed' step', related'⟩

/-- A run with the labels of its steps. -/
inductive Trace (guard : State → Label → Prop) : List Label → State → Prop
  | initial {s : State} (start : S.Initial s) : Trace guard [] s
  | step {labels : List Label} {s t : State} {l : Label} (run : Trace guard labels s) (allowed : guard s l)
      (step : S.Step s l t) : Trace guard (labels ++ [l]) t

section Trace

variable {labels : List Label}

theorem Trace.reaches (run : S.Trace guard labels s) : S.Reaches guard s := by
  induction run with
  | initial start => exact .initial start
  | step _ allowed step ih => exact .step ih allowed step

/-- A run is followed, step by step or standing still, by a run of another system that is shown some of its
    labels. -/
theorem Trace.simulate {State' Label' : Type*} {T : TransitionSystem State' Label'} (run : S.Trace guard labels s)
    (shown : Label → Option Label') (Related : State → State' → Prop)
    (base : ∀ s, S.Initial s → ∃ t, T.Initial t ∧ Related s t)
    (follow : ∀ s l s' t, S.Reaches guard s → Related s t → guard s l → S.Step s l s' →
      (shown l = none ∧ Related s' t) ∨ ∃ l' t', shown l = some l' ∧ T.Step t l' t' ∧ Related s' t') :
    ∃ t, T.Trace (fun _ _ => True) (labels.filterMap shown) t ∧ Related s t := by
  induction run with
  | initial start =>
    obtain ⟨t, first, related⟩ := base _ start
    exact ⟨t, .initial first, related⟩
  | step run allowed step ih =>
    obtain ⟨t, taken, related⟩ := ih
    rw [List.filterMap_append]
    rcases follow _ _ _ t run.reaches related allowed step with ⟨hidden, still⟩ | ⟨l', t', seen, step', related'⟩
    · rw [List.filterMap_cons_none hidden, List.filterMap_nil, List.append_nil]
      exact ⟨t, taken, still⟩
    · rw [List.filterMap_cons_some seen, List.filterMap_nil]
      exact ⟨t', .step taken trivial step', related'⟩

/-- A system all of whose steps another system can take, from related states to related ones, has its traces. -/
theorem Trace.refine {State' : Type*} {T : TransitionSystem State' Label} (run : S.Trace guard labels s)
    (Related : State → State' → Prop) (base : ∀ s, S.Initial s → ∃ t, T.Initial t ∧ Related s t)
    (follow : ∀ s l s' t, S.Reaches guard s → Related s t → guard s l → S.Step s l s' →
      ∃ t', T.Step t l t' ∧ Related s' t') : ∃ t, T.Trace (fun _ _ => True) labels t ∧ Related s t := by
  obtain ⟨t, taken, related⟩ : ∃ t, T.Trace (fun _ _ => True) (labels.filterMap some) t ∧ Related s t := by
    refine run.simulate some Related base fun s l s' t reached related allowed step => ?_
    obtain ⟨t', step', related'⟩ := follow s l s' t reached related allowed step
    exact .inr ⟨l, t', rfl, step', related'⟩
  rw [List.filterMap_some] at taken
  exact ⟨t, taken, related⟩

end Trace

/-- The system from one of its states on. -/
def startedAt (S : TransitionSystem State Label) (s : State) : TransitionSystem State Label where
  Initial t := t = s
  Step := S.Step

theorem Reaches.resume {t : State} (run : S.Reaches guard s) (later : (S.startedAt s).Reaches guard' t)
    (weaker : ∀ s l, guard' s l → guard s l) : S.Reaches guard t := by
  induction later with
  | initial start => exact start ▸ run
  | step _ allowed step ih => exact .step ih (weaker _ _ allowed) step

def withHistory {History : Type*} (S : TransitionSystem State Label) (start : State → History → Prop)
    (record : History → State → Label → State → History) : TransitionSystem (State × History) Label where
  Initial p := S.Initial p.1 ∧ start p.1 p.2
  Step p l q := S.Step p.1 l q.1 ∧ q.2 = record p.2 p.1 l q.1

section History

variable {History : Type*} {start : State → History → Prop} {record : History → State → Label → State → History}

/-- Every run can be recorded. -/
theorem Reaches.recorded (run : S.Reaches guard s) (starts : ∀ s, S.Initial s → ∃ h, start s h) :
    ∃ h, (S.withHistory start record).Reaches (fun p => guard p.1) (s, h) := by
  induction run with
  | initial first =>
    obtain ⟨h, begun⟩ := starts _ first
    exact ⟨h, .initial ⟨first, begun⟩⟩
  | @step s t l _ allowed step ih =>
    obtain ⟨h, run⟩ := ih
    exact ⟨record h s l t, .step run allowed ⟨step, rfl⟩⟩

theorem Reaches.forget {guard : State × History → Label → Prop} {p : State × History}
    (run : (S.withHistory start record).Reaches guard p)
    (weaker : ∀ p l, guard p l → guard' p.1 l) : S.Reaches guard' p.1 := by
  induction run with
  | initial first => exact .initial first.1
  | step _ allowed step ih => exact .step ih (weaker _ _ allowed) step.1

end History

end TransitionSystem

end Base
