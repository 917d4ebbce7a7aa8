import ExtentFs.Base.Agree
import ExtentFs.Invariants.Requests

namespace ExtentFs

open Base

/-! The callbacks answer `-errno` without setting `errno`. What the thread finds there shows in their
answers and nowhere else. -/

/-- Equal results, or results that both report what was found in `errno`. -/
def SameCode (env env' : Env) (r r' : Int) : Prop := r = r' ∨ r = -env.errno ∧ r' = -env'.errno

def SameReply (env env' : Env) : Reply → Reply → Prop
  | .status r, .status r' => SameCode env env' r r'
  | .readdir r names, .readdir r' names' => SameCode env env' r r' ∧ names = names'
  | .read r buf, .read r' buf' => SameCode env env' r r' ∧ buf = buf'
  | reply, reply' => reply = reply'

/-- One state is left behind, with answers that differ in what was found in `errno`. -/
def SameState (env env' : Env) (a b : FsCtx × Int) : Prop := a.1 = b.1 ∧ SameCode env env' a.2 b.2

section Codes

variable {env env' : Env} {fs : FsCtx} {r : Int} {path : CString} {fuel : Nat}

theorem SameState.equal : SameState env env' (fs, r) (fs, r) := ⟨rfl, .inl rfl⟩

theorem SameState.found : SameState env env' (fs, -env.errno) (fs, -env'.errno) := ⟨rfl, .inr ⟨rfl, rfl⟩⟩

theorem newEntry_errno {mode : BitVec 32} {refused refused' : Int} (clock : env.now = env'.now)
    (alike : SameCode env env' refused refused') : Agree (SameState env env')
      (newEntry env fs path mode refused) (newEntry env' fs path mode refused') := by
  unfold newEntry
  rw [clock]
  refine .next fun index _ => .ite (fun _ => .pure .equal) fun _ => .next fun marked _ => ?_
  refine .next fun parent _ => .ite (fun _ => .pure ⟨rfl, alike⟩) fun _ => .next fun dir _ => ?_
  exact .next fun added _ => .ite (fun _ => .pure .found) fun _ => .pure .equal

theorem removeEntry_errno {ino : Nat} {dirs : Int} (clock : env.now = env'.now) :
    Agree (SameState env env') (removeEntry env fs path ino dirs) (removeEntry env' fs path ino dirs) := by
  unfold removeEntry
  rw [clock]
  refine .next fun used _ => .ite (fun _ => .next fun marked _ => ?_) fun _ => .pure .found
  refine .next fun parent _ => .ite (fun _ => .pure .found) fun _ => .next fun dir _ => ?_
  refine .next fun found _ => ?_
  cases found with
  | none => exact .pure .found
  | some addr => exact .pure .equal

theorem a1fsRmdir_errno (clock : env.now = env'.now) :
    Agree (SameState env env') (a1fsRmdir env fs path) (a1fsRmdir env' fs path) := by
  unfold a1fsRmdir
  refine .next fun ino _ => .next fun inode _ => ?_
  exact .ite (fun _ => .pure .equal) fun _ => removeEntry_errno clock

theorem a1fsUnlink_errno (clock : env.now = env'.now) :
    Agree (SameState env env') (a1fsUnlink env fs path) (a1fsUnlink env' fs path) := by
  unfold a1fsUnlink
  refine .next fun ino _ => .next fun inode _ => .jump (.refl _) ?_
  rintro ⟨sb, bits, freed⟩ _ rfl
  exact .ite (fun _ => removeEntry_errno clock) fun _ => .pure .found

end Codes

section Sizes

variable {env env' : Env} {fs : FsCtx} {path : CString} {fuel i : Nat}

/-- Where the free blocks are searched, the helper does not fail, and nobody asks for `errno`. -/
theorem truncateHelper_succeeds {now : Timespec} {size : Int}
    (range : (fs.sb.sbFirstEmptyDb : Int) ≤ fs.sb.maxIndex) :
    Agree (fun a b => a = b ∧ ¬ a.2 < 0) (truncateHelper fuel fs i size now)
      (truncateHelper fuel fs i size now) := by
  cases helped : truncateHelper fuel fs i size now with
  | error => exact .error
  | ok out =>
    obtain ⟨code, -⟩ := truncateHelper_ok helped range
    exact .ok ⟨rfl, by omega⟩

theorem extendFile_errno {size : Int} (clock : env.now = env'.now)
    (range : (fs.sb.sbFirstEmptyDb : Int) ≤ fs.sb.maxIndex) :
    Agree Eq (extendFile env fuel fs i size) (extendFile env' fuel fs i size) := by
  unfold extendFile
  rw [clock]
  refine .ite (fun _ => .bind (truncateHelper_succeeds range) ?_) fun _ => .ite (fun _ => ?_) fun _ => .pure rfl
  · rintro ⟨fs1, helped⟩ _ ⟨rfl, helps⟩
    exact .ite (fun failed => absurd failed helps) fun _ => .pure rfl
  · refine .next fun last _ => .next fun addr _ => .next fun fs1 cleared => .next fun remaining _ => ?_
    obtain ⟨-, same⟩ := clearBytes_ok.mp cleared
    have range' : (fs1.sb.sbFirstEmptyDb : Int) ≤ fs1.sb.maxIndex := by
      rw [same]
      exact range
    refine .jump (R := fun a b => a = b ∧ ¬ a.2 < 0)
      (.ite (fun _ => truncateHelper_succeeds range') fun _ => .pure ⟨rfl, Int.lt_irrefl 0⟩) ?_
    rintro ⟨fs2, helped⟩ _ ⟨rfl, helps⟩
    exact .ite (fun failed => absurd failed helps) fun _ => .pure rfl

theorem a1fsTruncate_errno {size : Int} (clock : env.now = env'.now)
    (range : (fs.sb.sbFirstEmptyDb : Int) ≤ fs.sb.maxIndex) :
    Agree Eq (a1fsTruncate env fuel fs path size) (a1fsTruncate env' fuel fs path size) := by
  unfold a1fsTruncate
  rw [clock]
  refine .next fun n _ => .next fun inode _ => .ite (fun _ => .pure rfl) fun _ => ?_
  refine .ite (fun _ => .bind (truncateHelper_succeeds range) ?_) fun _ =>
    .ite (fun _ => extendFile_errno clock range) fun _ => .refl _
  rintro ⟨fs1, helped⟩ _ ⟨rfl, helps⟩
  exact .ite (fun failed => absurd failed helps) fun _ => .pure rfl

theorem a1fsWrite_errno {buf : List Byte} {offset : Nat} (clock : env.now = env'.now)
    (range : (fs.sb.sbFirstEmptyDb : Int) ≤ fs.sb.maxIndex) :
    Agree (SameState env env') (a1fsWrite env fuel fs path buf offset) (a1fsWrite env' fuel fs path buf offset) := by
  unfold a1fsWrite
  refine .next fun n _ => .ite (fun _ => .pure .found) fun _ => .next fun inode _ => ?_
  refine .jump (.ite (fun _ => a1fsTruncate_errno clock range) fun _ => .refl _) ?_
  rintro ⟨fs1, truncated⟩ _ rfl
  refine .ite (fun _ => .pure .equal) fun _ => .next fun found _ => .ite (fun _ => .pure .found) fun _ => ?_
  exact .next fun fs2 _ => .pure .equal

end Sizes

section Requests

variable {env env' : Env} {fs : FsCtx} {path : CString} {fuel : Nat}

theorem exec_errno {call : Call} (clock : env.now = env'.now)
    (range : (fs.sb.sbFirstEmptyDb : Int) ≤ fs.sb.maxIndex) :
    Agree (SameState env env') (call.exec env fuel fs) (call.exec env' fuel fs) := by
  cases call with
  | create path mode => exact .ite (fun _ => newEntry_errno clock (.inr ⟨rfl, rfl⟩)) fun _ => .error
  | mkdir path mode => exact newEntry_errno clock (.inl rfl)
  | unlink path => exact a1fsUnlink_errno clock
  | rmdir path => exact a1fsRmdir_errno clock
  | truncate path size =>
    refine (a1fsTruncate_errno clock range).mono fun a b same => ?_
    rw [same]
    exact .equal
  | write path buf offset => exact a1fsWrite_errno clock range

theorem a1fsUtimens_errno {times : Timespec × Timespec} :
    Agree (SameState env env') (a1fsUtimens env fs path times) (a1fsUtimens env' fs path times) := by
  unfold a1fsUtimens
  refine .next fun n _ => .ite (fun _ => .pure .found) fun _ => ?_
  exact .next fun inode _ => .pure .equal

theorem a1fsReaddir_errno : Agree (fun a b => SameCode env env' a.1 b.1 ∧ a.2 = b.2)
    (a1fsReaddir env fs path) (a1fsReaddir env' fs path) := by
  unfold a1fsReaddir
  refine .ite (fun _ => .pure ⟨.inl rfl, rfl⟩) fun _ => .next fun n _ => ?_
  refine .ite (fun _ => .pure ⟨.inr ⟨rfl, rfl⟩, rfl⟩) fun _ => .next fun dir _ => ?_
  exact .next fun names _ => .pure ⟨.inl rfl, rfl⟩

theorem a1fsRead_errno {size offset : Nat} : Agree (fun a b => SameCode env env' a.1 b.1 ∧ a.2 = b.2)
    (a1fsRead env fs path size offset) (a1fsRead env' fs path size offset) := by
  unfold a1fsRead
  refine .next fun n _ => .ite (fun _ => .pure ⟨.inr ⟨rfl, rfl⟩, rfl⟩) fun _ => .next fun inode _ => ?_
  refine .ite (fun _ => .pure ⟨.inl rfl, rfl⟩) fun _ => .next fun found _ => ?_
  refine .ite (fun _ => .pure ⟨.inr ⟨rfl, rfl⟩, rfl⟩) fun _ => .next fun buf _ => ?_
  exact .pure ⟨.inl rfl, rfl⟩

theorem serve_errno {request : Request} (clock : env.now = env'.now)
    (range : (fs.sb.sbFirstEmptyDb : Int) ≤ fs.sb.maxIndex) :
    Agree (fun a b => a.1 = b.1 ∧ SameReply env env' a.2 b.2) (request.serve env fuel fs)
      (request.serve env' fuel fs) := by
  have reply {a b : FsCtx × Int} (same : SameState env env' a b) :
      a.1 = b.1 ∧ SameReply env env' (.status a.2) (.status b.2) := same
  cases request with
  | statfs path => exact .pure ⟨rfl, rfl⟩
  | getattr path => exact .next fun answer _ => .pure ⟨rfl, rfl⟩
  | readdir path => exact .bind a1fsReaddir_errno fun a b same => .pure ⟨rfl, same⟩
  | read path size offset => exact .bind a1fsRead_errno fun a b same => .pure ⟨rfl, same⟩
  | utimens path times => exact .bind a1fsUtimens_errno fun a b same => .pure (reply same)
  | change call => exact .bind (exec_errno clock range) fun a b same => .pure (reply same)

end Requests

section Runs

variable {fs : FsCtx} {guard : FsCtx → Request → Prop} {env env' : Env} {fuel : Nat} {request : Request}

/-- In every state that the driver reaches, what a callback finds in `errno` changes no byte of the file
    system, and of the answer only the `errno` that it reports. -/
theorem errno_answers {allow : FsCtx → Exchange → Prop} (run : driver.Reaches allow fs) (clock : env.now = env'.now) :
    Agree (fun a b => a.1 = b.1 ∧ SameReply env env' a.2 b.2) (request.serve env fuel fs)
      (request.serve env' fuel fs) :=
  serve_errno clock (steady_of_driver run).shaped.range

theorem errno_answers_absent :
    Agree (fun a b => a.1 = b.1 ∧ SameReply ⟨⟨0, 0⟩, 5⟩ ⟨⟨0, 0⟩, 28⟩ a.2 b.2)
      (Request.serve ⟨⟨0, 0⟩, 5⟩ 10 device (.readdir pathA))
      (Request.serve ⟨⟨0, 0⟩, 28⟩ 10 device (.readdir pathA)) := by
  have run : driver.Reaches (fun _ _ => True) device := .initial device_initial
  exact errno_answers run rfl

/-- Whatever the callbacks find in `errno`, they reach no other states than with one value of it. -/
theorem errno_unseen (run : driver.Reaches (fun fs x => guard fs x.request) fs) (e : Nat) :
    driver.Reaches (fun fs x => guard fs x.request ∧ x.env.errno = e) fs := by
  have followed : ∃ t, driver.Reaches (fun fs x => guard fs x.request ∧ x.env.errno = e) t ∧ fs = t := by
    refine run.simulate (T := driver) Eq (fun s start => ⟨s, start, rfl⟩) ?_
    rintro s x s' _ reached rfl allowed ⟨fuel, served⟩
    have range := (steady_of_driver reached).shaped.range
    have alike : Agree (fun a b => a.1 = b.1 ∧ SameReply x.env ⟨x.env.now, e⟩ a.2 b.2)
      (x.request.serve x.env fuel s) (x.request.serve ⟨x.env.now, e⟩ fuel s) := serve_errno rfl range
    obtain ⟨⟨t, reply⟩, again, same, -⟩ := alike.of_ok served
    exact .inr ⟨⟨x.request, ⟨x.env.now, e⟩, reply⟩, t, ⟨allowed, rfl⟩, ⟨fuel, again⟩, same⟩
  obtain ⟨t, reached, rfl⟩ := followed
  exact reached

theorem errno_unseen_run : ∃ fs, fs.live 1 = true ∧
    driver.Reaches (fun _ x => True ∧ x.env.errno = 0) fs := by
  have creates : ∃ out, Request.serve ⟨⟨0, 0⟩, 28⟩ 10 device (.change (.create pathA regularMode)) = .ok out ∧
      out.1.live 1 = true := by
    decide +kernel
  obtain ⟨⟨fs, reply⟩, served, alive⟩ := creates
  have step : driver.Step device ⟨.change (.create pathA regularMode), ⟨⟨0, 0⟩, 28⟩, reply⟩ fs := ⟨10, served⟩
  have run : driver.Reaches (fun _ _ => True) fs := .step (.initial device_initial) trivial step
  exact ⟨fs, alive, @errno_unseen fs (fun _ _ => True) run 0⟩

end Runs

end ExtentFs
