import ExtentFs.Effects.Times
import ExtentFs.Invariants.Requests

namespace ExtentFs

open Base

def Reply.timeless (reply : Reply) : Reply := reply.mapTimes fun _ => epoch

/-- A request without the clock that it finds and the times that it sets. -/
def timelessRequest (asked : Env × Request) : Env × Request :=
  (asked.1.mapTimes fun _ => epoch, asked.2.mapTimes fun _ => epoch)

/-- The times that a request may leave in an inode. -/
def Exchange.times (x : Exchange) : List Timespec :=
  match x.request with
  | .change _ => [x.env.now]
  | .utimens _ times => [times.2]
  | _ => []

/-- The driver beside the times brought in by `mkfs` and by its requests. -/
def clocked : TransitionSystem (FsCtx × List Timespec) Exchange :=
  driver.withHistory (fun fs h => ∃ formatted, InitialAt formatted fs ∧ h = [formatted]) fun h _ x _ => x.times ++ h

section Natural

variable {g : Timespec → Timespec} {fs fs' : FsCtx} {fuel : Nat}

theorem serveAll_times {script : List (Env × Request)} :
    Agree (fun a b => b = (a.1.mapTimes g, a.2.map (Reply.mapTimes g))) (serveAll fuel fs script)
      (serveAll fuel (fs.mapTimes g) (script.map fun asked => (asked.1.mapTimes g, asked.2.mapTimes g))) := by
  induction script generalizing fs with
  | nil => exact .ok rfl
  | cons asked rest ih =>
    rw [List.map_cons, serveAll, serveAll]
    refine .bind serve_times ?_
    rintro ⟨fs1, reply⟩ _ rfl
    refine .bind ih ?_
    rintro ⟨fs2, replies⟩ _ rfl
    exact .pure rfl

end Natural

/-- Requests that differ in their clocks and in the times they set, made in states that differ in
    their times, are answered alike but for the times that `getattr` reports, and fail alike. -/
theorem clock_irrelevant {fs fs' : FsCtx} {script script' : List (Env × Request)} (fuel : Nat)
    (states : fs.timeless = fs'.timeless)
    (requests : script.map timelessRequest = script'.map timelessRequest) :
    Agree (fun a b => a.1.timeless = b.1.timeless ∧ a.2.map Reply.timeless = b.2.map Reply.timeless)
      (serveAll fuel fs script) (serveAll fuel fs' script') := by
  have left : Agree (fun a b => b = (a.1.timeless, a.2.map Reply.timeless)) (serveAll fuel fs script)
      (serveAll fuel fs.timeless (script.map timelessRequest)) := serveAll_times
  have right : Agree (fun a b => b = (a.1.timeless, a.2.map Reply.timeless)) (serveAll fuel fs' script')
      (serveAll fuel fs'.timeless (script'.map timelessRequest)) := serveAll_times
  rw [states, requests] at left
  revert left right
  generalize serveAll fuel fs script = x
  generalize serveAll fuel fs' script' = y
  generalize serveAll fuel fs'.timeless (script'.map timelessRequest) = z
  intro left right
  cases left with
  | error =>
    cases right with
    | error => exact .error
  | ok related =>
    cases right with
    | ok related' =>
      subst related
      rw [Prod.mk.injEq] at related'
      exact .ok related'

theorem clock_irrelevant_create :
    Agree (fun a b => a.1.timeless = b.1.timeless ∧ a.2.map Reply.timeless = b.2.map Reply.timeless)
      (serveAll 10 device [(quiet, .change (.create pathA regularMode)), (quiet, .getattr pathA)])
      (serveAll 10 (device.mapTimes fun _ => ⟨5, 0⟩)
        [(⟨⟨9, 0⟩, 0⟩, .change (.create pathA regularMode)), (⟨⟨9, 1⟩, 0⟩, .getattr pathA)]) :=
  clock_irrelevant 10 rfl rfl

section Recorded

variable {fs fs' : FsCtx} {env : Env} {fuel : Nat} {call : Call} {r : Int}

/-- A call leaves no time behind but the ones it found and the clock's. Otherwise a change of the
    times that keeps all of these would change the outcome. -/
theorem exec_recorded {T : List Timespec} (returned : call.exec env fuel fs = .ok (fs', r))
    (old : ∀ i, (fs.itable i).iMtime ∈ T) (now : env.now ∈ T) (i : Nat) : (fs'.itable i).iMtime ∈ T := by
  let other (t : Timespec) : Timespec := if t ∈ T then t else { t with tvSec := t.tvSec + 1 }
  have kept {t : Timespec} (member : t ∈ T) : other t = t := if_pos member
  have moved {t : Timespec} (strange : t ∉ T) : other t ≠ t := by
    intro same
    have sec := congrArg Timespec.tvSec same
    simp only [other, if_neg strange] at sec
    have differ : t.tvSec + 1#64 ≠ t.tvSec := by
      intro equal
      have := congrArg BitVec.toNat equal
      rw [BitVec.toNat_add] at this
      have bound := t.tvSec.isLt
      simp only [BitVec.toNat_ofNat] at this
      omega
    exact differ sec
  have state : fs.mapTimes other = fs := by
    refine (FsCtx.eq_mapTimes rfl rfl rfl rfl (fun k => ?_) rfl).symm
    rw [A1fsInode.mapTime, kept (old k)]
  have clock : env.mapTimes other = env := by
    rw [Env.mapTimes, kept now]
  have agree : Agree (Retimed other) (call.exec env fuel fs)
      (call.exec (env.mapTimes other) fuel (fs.mapTimes other)) := exec_times
  obtain ⟨b, again, same⟩ := agree.of_ok returned
  rw [state, clock, returned, Except.ok.injEq] at again
  subst again
  have fixed : fs' = fs'.mapTimes other := congrArg Prod.fst same
  by_contra strange
  apply moved strange
  have inode := congrArg (fun fs : FsCtx => (fs.itable i).iMtime) fixed
  exact inode.symm

end Recorded

/-- Every modification time, and every time that `getattr` reports, is 0, the time of formatting, the
    clock of a call made before, or a time that `utimens` was given. -/
theorem mtimes_recorded {fs : FsCtx} {h : List Timespec}
    (run : clocked.Reaches (fun _ _ => True) (fs, h)) :
    (∀ i, (fs.itable i).iMtime ∈ epoch :: h) ∧
      ∀ path st, a1fsGetattr fs path = .ok (0, some st) → st.stMtim ∈ epoch :: h := by
  have recorded : ∀ i, (fs.itable i).iMtime ∈ epoch :: h := by
    refine run.invariant (fun s => ∀ i, (s.1.itable i).iMtime ∈ epoch :: s.2) ?_ ?_
    · rintro ⟨s, h⟩ ⟨-, formatted, start, begun⟩ i
      obtain ⟨blocks, nInodes, d, g, rfl⟩ := InitialAt.shape start
      have first : h = [formatted] := begun
      rcases formatted_inode blocks nInodes d formatted i with root | zero
      · rw [root, first]
        exact List.mem_cons_of_mem _ List.mem_cons_self
      · have cleared : zeroInode.iMtime = epoch := by decide
        rw [zero, cleared]
        exact List.mem_cons_self
    · rintro ⟨s, h⟩ x ⟨t, h'⟩ old - ⟨⟨fuel, served⟩, record⟩ i
      have more : h' = x.times ++ h := record
      have wider {time : Timespec} (member : time ∈ epoch :: h) : time ∈ epoch :: h' := by
        rw [more]
        simp only [List.mem_cons, List.mem_append] at member ⊢
        tauto
      have new {time : Timespec} (member : time ∈ x.times) : time ∈ epoch :: h' := by
        rw [more]
        simp only [List.mem_cons, List.mem_append]
        tauto
      rcases serve_cases served with same | ⟨path, times, j, asked, result⟩ | ⟨call, r, asked, -, returned⟩
      · rw [same]
        exact wider (old i)
      · have result' : t = s.setInode j { s.itable j with iMtime := times.2 } := result
        dsimp only
        rw [result']
        by_cases own : i = j
        · rw [own, FsCtx.setInode_self]
          exact new (by rw [Exchange.times, asked]; exact List.mem_singleton_self _)
        · rw [FsCtx.setInode_other own]
          exact wider (old i)
      · have now : x.env.now ∈ epoch :: h' :=
          new (by rw [Exchange.times, asked]; exact List.mem_singleton_self _)
        exact exec_recorded returned (fun k => wider (old k)) now i
  refine ⟨recorded, fun path st returned => ?_⟩
  rw [a1fsGetattr] at returned
  split at returned
  · cases returned
  · split at returned
    · cases returned
    · rw [bind_eq_ok] at returned
      obtain ⟨i, -, returned⟩ := returned
      split at returned
      · cases returned
      · rw [bind_eq_ok] at returned
        obtain ⟨inode, read, returned⟩ := returned
        obtain ⟨-, rfl⟩ := inodeAt_ok.mp read
        cases returned
        exact recorded _

theorem mtimes_recorded_run : ∃ fs h, clocked.Reaches (fun _ _ => True) (fs, h) ∧ fs.live 1 = true ∧
    (∀ i, (fs.itable i).iMtime ∈ epoch :: h) ∧
      ∀ path st, a1fsGetattr fs path = .ok (0, some st) → st.stMtim ∈ epoch :: h := by
  have returns : ∃ out, serveAll 10 device [(⟨⟨3, 0⟩, 0⟩, .change (.create pathA regularMode)),
      (⟨⟨4, 0⟩, 0⟩, .utimens pathA (⟨1, 0⟩, ⟨2, 0⟩))] = .ok out ∧ out.1.live 1 = true := by
    decide +kernel
  obtain ⟨⟨fs, replies⟩, returned, alive⟩ := returns
  have run : driver.Reaches (fun _ _ => True) fs := serveAll_reaches (.initial device_initial) returned
  obtain ⟨h, recorded⟩ : ∃ h, clocked.Reaches (fun _ _ => True) (fs, h) :=
    run.recorded fun _ ⟨now, start⟩ => ⟨_, now, start, rfl⟩
  exact ⟨fs, h, recorded, alive, mtimes_recorded recorded⟩

section Simulation

variable {fs fs' fs0 : FsCtx} {env : Env} {fuel : Nat} {call : Call} {r : Int}

theorem exec_timeless (alike : fs.timeless = fs0.timeless) (returned : call.exec env fuel fs = .ok (fs', r)) :
    ∃ fs0', call.exec env fuel fs0 = .ok (fs0', r) ∧ fs'.timeless = fs0'.timeless := by
  have left : Agree (Retimed fun _ => epoch) (call.exec env fuel fs)
      (call.exec (env.mapTimes fun _ => epoch) fuel fs.timeless) := exec_times
  have right : Agree (Retimed fun _ => epoch) (call.exec env fuel fs0)
      (call.exec (env.mapTimes fun _ => epoch) fuel fs0.timeless) := exec_times
  obtain ⟨b, shared, same⟩ := left.of_ok returned
  rw [alike] at shared
  obtain ⟨⟨fs0', r'⟩, other, same'⟩ := right.of_ok_right shared
  rw [same, Retimed, Prod.mk.injEq] at same'
  obtain ⟨state, code⟩ := same'
  dsimp only at code
  subst code
  exact ⟨fs0', other, state⟩

end Simulation

/-- The requests that only look, and `utimens`, leave no trace but times: every run of the driver is a
    run of its calls alone, up to the times. -/
theorem utimens_invisible {fs : FsCtx} {guard : FsCtx → Event → Prop}
    (timeless : ∀ {fs fs' event}, fs.timeless = fs'.timeless → guard fs event → guard fs' event)
    (run : driver.Reaches (fun fs x => ∀ event ∈ x.event, guard fs event) fs) :
    ∃ fs0, a1fs.Reaches guard fs0 ∧ fs.timeless = fs0.timeless := by
  refine run.simulate (T := a1fs) (fun fs fs0 => fs.timeless = fs0.timeless)
    (fun s start => ⟨s, start, rfl⟩) ?_
  rintro s x s' t - alike allowed ⟨fuel, served⟩
  rcases serve_cases served with same | ⟨path, times, i, -, result⟩ | ⟨call, r, asked, answered, returned⟩
  · exact .inl (by rw [same, alike])
  · exact .inl (by rw [result, timeless_setInode, alike])
  · obtain ⟨t', step, alike'⟩ := exec_timeless alike returned
    have made : x.event = some ⟨call, x.env, r⟩ := by
      rw [Exchange.event, asked, answered]
    exact .inr ⟨⟨call, x.env, r⟩, t', timeless alike (allowed _ made), ⟨fuel, step⟩, alike'⟩

theorem documented_timeless {fs fs' : FsCtx} {event : Event} (alike : fs.timeless = fs'.timeless)
    (documented : Documented fs event.call) : Documented fs' event.call := by
  have cleared : Documented fs'.timeless event.call := alike ▸ documented_times.mpr documented
  exact documented_times.mp cleared

theorem utimens_invisible_run : ∃ fs fs0,
    driver.Reaches (fun fs x => ∀ event ∈ x.event, Documented fs event.call) fs ∧ fs.live 1 = true ∧
    a1fs.Reaches (fun fs event => Documented fs event.call) fs0 ∧ fs.timeless = fs0.timeless := by
  have creates : ∃ out, Request.serve quiet 10 device (.change (.create pathA regularMode)) = .ok out ∧
      out.1.live 1 = true ∧ ∃ out', Request.serve quiet 10 out.1 (.utimens pathA (⟨1, 0⟩, ⟨2, 0⟩)) = .ok out' ∧
      out'.1.live 1 = true := by
    decide +kernel
  obtain ⟨⟨fs1, reply1⟩, first, -, ⟨fs2, reply2⟩, second, alive⟩ := creates
  have documented : Documented device (.create pathA regularMode) := by decide +kernel
  have step1 : driver.Step device ⟨.change (.create pathA regularMode), quiet, reply1⟩ fs1 := ⟨10, first⟩
  have step2 : driver.Step fs1 ⟨.utimens pathA (⟨1, 0⟩, ⟨2, 0⟩), quiet, reply2⟩ fs2 := ⟨10, second⟩
  have allowed1 : ∀ event ∈ Exchange.event ⟨.change (.create pathA regularMode), quiet, reply1⟩,
      Documented device event.call := by
    intro event member
    cases reply1 with
    | status result =>
      cases member
      exact documented
    | _ => cases member
  have allowed2 : ∀ event ∈ Exchange.event ⟨.utimens pathA (⟨1, 0⟩, ⟨2, 0⟩), quiet, reply2⟩,
      Documented fs1 event.call := by
    intro event member
    cases member
  have run : driver.Reaches (fun fs x => ∀ event ∈ x.event, Documented fs event.call) fs2 :=
    .step (.step (.initial device_initial) allowed1 step1) allowed2 step2
  have followed : ∃ fs0, a1fs.Reaches (fun fs event => Documented fs event.call) fs0 ∧
      fs2.timeless = fs0.timeless := utimens_invisible documented_timeless run
  obtain ⟨fs0, reached, alike⟩ := followed
  exact ⟨fs2, fs0, run, alive, reached, alike⟩

end ExtentFs
