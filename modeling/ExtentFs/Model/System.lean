import ExtentFs.Base.Runs
import ExtentFs.Model.Driver
import ExtentFs.Model.Format

namespace ExtentFs

open Base

inductive Call where
  | create (path : CString) (mode : BitVec 32)
  | mkdir (path : CString) (mode : BitVec 32)
  | unlink (path : CString)
  | rmdir (path : CString)
  | truncate (path : CString) (size : Int)
  | write (path : CString) (buf : List Byte) (offset : Nat)
  deriving DecidableEq

def Call.path : Call → CString
  | .create path _ | .mkdir path _ | .unlink path | .rmdir path | .truncate path _
  | .write path _ _ => path

def Call.exec (env : Env) (fuel : Nat) (fs : FsCtx) : Call → Checked (FsCtx × Int)
  | .create path mode => a1fsCreate env fs path mode
  | .mkdir path mode => a1fsMkdir env fs path mode
  | .unlink path => a1fsUnlink env fs path
  | .rmdir path => a1fsRmdir env fs path
  | .truncate path size => a1fsTruncate env fuel fs path size
  | .write path buf offset => a1fsWrite env fuel fs path buf offset

/-- The inode that a walk through directories reaches, one lookup for each component. -/
def walkTo (fs : FsCtx) : Nat → List (List Byte) → Option Nat
  | i, [] => some i
  | i, token :: rest =>
    if sIsdir (fs.itable i).mode then
      match inodeLookup fs i token with
      | .ok j => if 0 ≤ j ∧ j < fs.sb.sbInodesCount then walkTo fs j.toNat rest else none
      | .error _ => none
    else none

def Call.tokens (call : Call) : List (List Byte) := strtok call.path.bytes

namespace FsCtx

/-- The inode that a path names, as the callers find it out component by component. -/
def resolve (fs : FsCtx) (path : CString) : Option Nat := walkTo fs 0 (strtok path.bytes)

/-- The directory that should hold the last component of a path. -/
def parent (fs : FsCtx) (path : CString) : Option Nat :=
  (walkTo fs 0 (strtok path.bytes).dropLast).filter fun i => sIsdir (fs.itable i).mode

/-- The inode is marked as used in the inode bitmap. -/
def live (fs : FsCtx) (i : Nat) : Bool := (i : Int) < fs.sb.sbInodesCount ∧ fs.inodeBits.test i

end FsCtx

/-- Absolute, without a trailing slash except for the root, nothing too long. -/
def WellShaped (path : CString) : Prop :=
  path.bytes.head? = some slash ∧ (path.bytes.getLast? = some slash → path.bytes = [slash]) ∧
    path.bytes.length < a1fsPathMax ∧ ∀ token ∈ strtok path.bytes, token.length < a1fsNameMax

/-- "path" does not exist, its parent directory does. -/
def Creatable (fs : FsCtx) (path : CString) : Prop :=
  WellShaped path ∧ strtok path.bytes ≠ [] ∧ (fs.parent path).isSome ∧
    ∀ p ∈ fs.parent path, ∃ r ∈ (inodeLookup fs p (strrchr path.bytes)).toOption, r < 0

/-- "path" exists and is a file. -/
def IsFile (fs : FsCtx) (path : CString) : Prop :=
  WellShaped path ∧ ∃ i ∈ fs.resolve path, sIsreg (fs.itable i).mode

def IsDirectory (fs : FsCtx) (path : CString) : Prop :=
  WellShaped path ∧ ∃ i ∈ fs.resolve path, sIsdir (fs.itable i).mode

/-- The assumptions written above the callbacks. -/
def Documented (fs : FsCtx) : Call → Prop
  | .create path _ => Creatable fs path
  | .mkdir path mode => Creatable fs path ∧ (mode &&& sIfmt = 0#32 ∨ mode &&& sIfmt = sIfdir)
  | .unlink path => IsFile fs path
  | .rmdir path => IsDirectory fs path
  | .truncate path _ => IsFile fs path
  | .write path buf offset => IsFile fs path ∧ offset % 4096 + buf.length ≤ 4096

/-- One call: what it was given and what it returned. -/
structure Event where
  call : Call
  env : Env
  result : Int

/-- The parts of an image, each from its first byte to the byte after its last: superblock
    block, inode bitmap, data bitmap, inode table, data region. -/
def regions (sb : A1fsSuperblock) (size nInodes : Nat) : List (Nat × Nat) :=
  [(0, 4096),
   (4096 * sb.sbInodeBitmap, 4096 * sb.sbInodeBitmap + (nInodes + 7) / 8),
   (4096 * sb.sbBlockBitmap,
    4096 * sb.sbBlockBitmap + (size / 4096 - sb.sbFirstDataBlock + 7) / 8),
   (4096 * sb.sbInodeTable, 4096 * sb.sbInodeTable + 256 * nInodes),
   (4096 * sb.sbFirstDataBlock, size)]

def RegionsDisjoint (sb : A1fsSuperblock) (size nInodes : Nat) : Prop :=
  (∀ r ∈ regions sb size nInodes, r.1 ≤ r.2 ∧ r.2 ≤ size) ∧
    (regions sb size nInodes).Pairwise fun r r' => r.2 ≤ r'.1 ∨ r'.2 ≤ r.1

/-- The mounted image of a device that `mkfs -z` formatted at time `now` with disjoint regions. -/
def InitialAt (now : Timespec) (fs : FsCtx) : Prop :=
  ∃ blocks nInodes image,
    0 < blocks ∧ 4096 * blocks < 2 ^ 64 ∧ 0 < nInodes ∧ nInodes < 2 ^ 64 ∧
    mkfs (fun _ => 0) (4096 * blocks) nInodes now = .ok (some image) ∧
    RegionsDisjoint (A1fsSuperblock.read image) (4096 * blocks) nInodes ∧
    fs = (fsCtxInit image (4096 * blocks)).1

def Initial (fs : FsCtx) : Prop := ∃ now, InitialAt now fs

/-- The file system: a step is a call that returns, so a run ends at an access outside its own array. -/
def a1fs : TransitionSystem FsCtx Event where
  Initial := Initial
  Step fs event fs' := ∃ fuel, event.call.exec event.env fuel fs = .ok (fs', event.result)

instance (path : CString) : Decidable (WellShaped path) :=
  inferInstanceAs (Decidable (_ ∧ _ ∧ _ ∧ _))

instance (fs : FsCtx) (path : CString) : Decidable (Creatable fs path) :=
  inferInstanceAs (Decidable (_ ∧ _ ∧ _ ∧ _))

instance (fs : FsCtx) (path : CString) : Decidable (IsFile fs path) :=
  inferInstanceAs (Decidable (_ ∧ _))

instance (fs : FsCtx) (path : CString) : Decidable (IsDirectory fs path) :=
  inferInstanceAs (Decidable (_ ∧ _))

instance (fs : FsCtx) : (call : Call) → Decidable (Documented fs call)
  | .create path _ => inferInstanceAs (Decidable (Creatable fs path))
  | .mkdir path mode => inferInstanceAs (Decidable (Creatable fs path ∧
      (mode &&& sIfmt = 0#32 ∨ mode &&& sIfmt = sIfdir)))
  | .unlink path => inferInstanceAs (Decidable (IsFile fs path))
  | .rmdir path => inferInstanceAs (Decidable (IsDirectory fs path))
  | .truncate path _ => inferInstanceAs (Decidable (IsFile fs path))
  | .write path buf offset =>
    inferInstanceAs (Decidable (IsFile fs path ∧ offset % 4096 + buf.length ≤ 4096))

section Run

variable (guard : FsCtx → Event → Prop) [∀ fs event, Decidable (guard fs event)]

/-- The state after a list of calls that all return and all meet a condition. -/
def runCalls (env : Env) (fuel : Nat) : FsCtx → List Call → Option FsCtx
  | fs, [] => some fs
  | fs, call :: rest =>
    match call.exec env fuel fs with
    | .ok (fs', r) => if guard fs ⟨call, env, r⟩ then runCalls env fuel fs' rest else none
    | .error _ => none

variable {guard}

theorem runCalls_reaches {env : Env} {fuel : Nat} {fs fs' : FsCtx} {calls : List Call}
    (run : a1fs.Reaches guard fs) (h : runCalls guard env fuel fs calls = some fs') :
    a1fs.Reaches guard fs' := by
  induction calls generalizing fs with
  | nil =>
    cases h
    exact run
  | cons call rest ih =>
    rw [runCalls] at h
    split at h
    · rename_i next r returned
      split at h
      · rename_i allowed
        exact ih (.step run allowed ⟨fuel, returned⟩) h
      · cases h
    · cases h

end Run

end ExtentFs
