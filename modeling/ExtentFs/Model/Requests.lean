import ExtentFs.Model.System

namespace ExtentFs

open Base

/-- What FUSE asks for: the entries of `a1fs_ops` but `destroy`. -/
inductive Request where
  | statfs (path : CString)
  | getattr (path : CString)
  | readdir (path : CString)
  | read (path : CString) (size offset : Nat)
  | utimens (path : CString) (times : Timespec × Timespec)
  | change (call : Call)

/-- The result of a callback and what it leaves in the caller's memory. -/
inductive Reply where
  | statfs (st : Statvfs)
  | getattr (result : Int) (st : Option Stat)
  | readdir (result : Int) (names : List (List Byte))
  | read (result : Int) (buf : Buffer)
  | status (result : Int)

def Request.serve (env : Env) (fuel : Nat) (fs : FsCtx) : Request → Checked (FsCtx × Reply)
  | .statfs _ => return (fs, .statfs (a1fsStatfs fs))
  | .getattr path => do
    let (result, st) ← a1fsGetattr fs path
    return (fs, .getattr result st)
  | .readdir path => do
    let (result, names) ← a1fsReaddir env fs path
    return (fs, .readdir result names)
  | .read path size offset => do
    let (result, buf) ← a1fsRead env fs path size offset
    return (fs, .read result buf)
  | .utimens path times => do
    let (fs, result) ← a1fsUtimens env fs path times
    return (fs, .status result)
  | .change call => do
    let (fs, result) ← call.exec env fuel fs
    return (fs, .status result)

/-- One request: what it was given and what it was answered. -/
structure Exchange where
  request : Request
  env : Env
  reply : Reply

/-- The call that a request makes and what it returned. -/
def Exchange.event (x : Exchange) : Option Event :=
  match x.request, x.reply with
  | .change call, .status result => some ⟨call, x.env, result⟩
  | _, _ => none

/-- The mounted file system with all of its callbacks. -/
def driver : TransitionSystem FsCtx Exchange where
  Initial := Initial
  Step fs x fs' := ∃ fuel, x.request.serve x.env fuel fs = .ok (fs', x.reply)

/-- The replies to a list of requests, each with the clock and the `errno` that it finds. -/
def serveAll (fuel : Nat) : FsCtx → List (Env × Request) → Checked (FsCtx × List Reply)
  | fs, [] => .ok (fs, [])
  | fs, (env, request) :: rest => do
    let (fs, reply) ← request.serve env fuel fs
    let (fs, replies) ← serveAll fuel fs rest
    return (fs, reply :: replies)

theorem serveAll_reaches {fuel : Nat} {fs fs' : FsCtx} {script : List (Env × Request)}
    {replies : List Reply} (run : driver.Reaches (fun _ _ => True) fs)
    (returned : serveAll fuel fs script = .ok (fs', replies)) : driver.Reaches (fun _ _ => True) fs' := by
  induction script generalizing fs replies with
  | nil =>
    cases returned
    exact run
  | cons asked rest ih =>
    obtain ⟨env, request⟩ := asked
    rw [serveAll, bind_eq_ok] at returned
    obtain ⟨⟨fs1, reply⟩, served, returned⟩ := returned
    rw [bind_eq_ok] at returned
    obtain ⟨⟨fs2, replies'⟩, later, returned⟩ := returned
    cases returned
    have step : driver.Step fs ⟨request, env, reply⟩ fs1 := ⟨fuel, served⟩
    exact ih (.step run trivial step) later

section Run

variable (guard : FsCtx → Exchange → Prop) [∀ fs x, Decidable (guard fs x)]

/-- The state after a list of requests that all return and all meet a condition, with what they were answered. -/
def exchangeAll (fuel : Nat) : FsCtx → List (Env × Request) → Option (FsCtx × List Exchange)
  | fs, [] => some (fs, [])
  | fs, (env, request) :: rest =>
    match request.serve env fuel fs with
    | .ok (fs', reply) =>
      if guard fs ⟨request, env, reply⟩ then
        (exchangeAll fuel fs' rest).map fun out => (out.1, ⟨request, env, reply⟩ :: out.2)
      else none
    | .error _ => none

variable {guard}

theorem exchangeAll_trace {fuel : Nat} {fs fs' : FsCtx} {before exchanges : List Exchange}
    {script : List (Env × Request)} (run : driver.Trace guard before fs)
    (returned : exchangeAll guard fuel fs script = some (fs', exchanges)) :
    driver.Trace guard (before ++ exchanges) fs' := by
  induction script generalizing fs before exchanges with
  | nil =>
    cases returned
    rwa [List.append_nil]
  | cons asked rest ih =>
    obtain ⟨env, request⟩ := asked
    rw [exchangeAll] at returned
    split at returned
    · rename_i next reply served
      split at returned
      · rename_i allowed
        rw [Option.map_eq_some_iff] at returned
        obtain ⟨⟨last, later⟩, returned, same⟩ := returned
        cases same
        have step : driver.Step fs ⟨request, env, reply⟩ next := ⟨fuel, served⟩
        rw [List.append_cons]
        exact ih (.step run allowed step) returned
      · cases returned
    · cases returned

end Run

end ExtentFs
