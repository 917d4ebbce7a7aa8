import ExtentFs.Effects.Bounds
import ExtentFs.Effects.Calls

namespace ExtentFs

open Base

/-- A condition on the inode of the file that a call resizes and on the new size. -/
def OnResize (fs : FsCtx) (call : Call) (P : Nat → Int → Prop) : Prop :=
  Yields (getInodeNum fs call.path 0) fun i =>
    ∀ size ∈ call.resizeTo (fs.itable i.toNat), P i.toNat size

instance {fs : FsCtx} {call : Call} {P : Nat → Int → Prop} [∀ i size, Decidable (P i size)] :
    Decidable (OnResize fs call P) :=
  inferInstanceAs (Decidable (Yields _ _))

/-- A condition on the state in which a new entry is added, the new inode and the directory. -/
def OnEntry (fs : FsCtx) (env : Env) (call : Call) (P : FsCtx → Nat → Nat → Prop) : Prop :=
  ∀ mode ∈ call.newMode, Yields (getAvailableBit fs.sb fs.inodeBits .inode (-1)) fun ino =>
    Yields (getInodeNum (fs.takeInode ino.toNat mode env.now) call.path 1) fun p =>
      P (fs.takeInode ino.toNat mode env.now) ino.toNat p.toNat

instance {fs : FsCtx} {env : Env} {call : Call} {P : FsCtx → Nat → Nat → Prop}
    [∀ fs i p, Decidable (P fs i p)] : Decidable (OnEntry fs env call P) :=
  -- by the option, not by the 2^32 values of the mode
  Option.decidableForallMem _

/-- A condition on the inode of the file that a call unlinks. -/
def OnUnlink (fs : FsCtx) (call : Call) (P : Nat → Prop) : Prop :=
  match call with
  | .unlink path => Yields (getInodeNum fs path 0) fun i => P i.toNat
  | _ => True

instance {fs : FsCtx} {P : Nat → Prop} [DecidablePred P] : (call : Call) →
    Decidable (OnUnlink fs call P)
  | .unlink path => inferInstanceAs (Decidable (Yields (getInodeNum fs path 0) fun i => P i.toNat))
  | .create _ _ | .mkdir _ _ | .rmdir _ | .truncate _ _ | .write _ _ _ => .isTrue trivial

/-- A condition on the inode of the directory that a call removes. -/
def OnRmdir (fs : FsCtx) (call : Call) (P : Nat → Prop) : Prop :=
  match call with
  | .rmdir path => Yields (getInodeNum fs path 0) fun i => P i.toNat
  | _ => True

instance {fs : FsCtx} {P : Nat → Prop} [DecidablePred P] : (call : Call) →
    Decidable (OnRmdir fs call P)
  | .rmdir path => inferInstanceAs (Decidable (Yields (getInodeNum fs path 0) fun i => P i.toNat))
  | .create _ _ | .mkdir _ _ | .unlink _ | .truncate _ _ | .write _ _ _ => .isTrue trivial

/-- A condition on the inode of the file that a call writes to, the bytes and the offset. -/
def OnWrite (fs : FsCtx) (call : Call) (P : Nat → List Byte → Nat → Prop) : Prop :=
  match call with
  | .write path buf offset => Yields (getInodeNum fs path 0) fun i => P i.toNat buf offset
  | _ => True

instance {fs : FsCtx} {P : Nat → List Byte → Nat → Prop} [∀ i buf offset, Decidable (P i buf offset)] :
    (call : Call) → Decidable (OnWrite fs call P)
  | .write path buf offset =>
    inferInstanceAs (Decidable (Yields (getInodeNum fs path 0) fun i => P i.toNat buf offset))
  | .create _ _ | .mkdir _ _ | .unlink _ | .rmdir _ | .truncate _ _ => .isTrue trivial

/-- No thirteenth extent is opened: a file that grows finds its blocks in one run, and an inode that gets blocks
    has one of its twelve slots left for them or is added to at its last extent. -/
def FindsSlot (fs : FsCtx) (event : Event) : Prop :=
  (OnResize fs event.call fun i size => ∀ bytes ∈ helperSize (fs.itable i) size, fs.RoomForBytes i bytes) ∧
    OnEntry fs event.env event.call fun fs _ p => fs.RoomForEntry p

instance (fs : FsCtx) (event : Event) : Decidable (FindsSlot fs event) :=
  inferInstanceAs (Decidable (_ ∧ _))

/-- Nothing is added to the end of a last extent: a file or a directory that gets blocks has
    none in use behind it. -/
def GrowsApart (fs : FsCtx) (event : Event) : Prop :=
  OnResize fs event.call (fun i size => fs.attaches i (growthBlocks (fs.itable i) size) = false) ∧
    OnEntry fs event.env event.call fun fs _ p =>
      fs.findIno (fs.itable p) (-1) = .ok none → fs.attaches p 1 = false

instance (fs : FsCtx) (event : Event) : Decidable (GrowsApart fs event) :=
  inferInstanceAs (Decidable (_ ∧ _))

def FsCtx.Uncovered (fs : FsCtx) (b : Nat) : Prop :=
  ∀ j < fs.sb.sbInodesCount.toNat, b ∉ (fs.itable j).blocks

/-- An inode that grows by `n` blocks gets an extent of its own, of blocks that no inode covers. -/
structure FsCtx.GrowsInto (fs : FsCtx) (i n : Nat) : Prop where
  apart : fs.attaches i n = false
  uncovered : Yields (getAvailableBit fs.sb fs.blockBits .data n) fun start =>
    0 ≤ start → ∀ b ∈ List.range' start.toNat n, fs.Uncovered b

/-- The calls that leave the blocks of other inodes alone. -/
structure Sound (fs : FsCtx) (event : Event) : Prop where
  documented : Documented fs event.call
  findsSlot : FindsSlot fs event
  keepsRoot : OnRmdir fs event.call fun i => i ≠ 0
  resizes : OnResize fs event.call fun i size =>
    0 ≤ size ∧ size < 2 ^ 31 ∧ fs.GrowsInto i (growthBlocks (fs.itable i) size)
  enters : OnEntry fs event.env event.call fun fs _ p =>
    fs.findIno (fs.itable p) (-1) = .ok none → fs.GrowsInto p 1
  lands : OnWrite fs event.call fun i buf offset => offset + buf.length < 2 ^ 31 ∧
    (buf = [] ∨ offset = 0 ∨ lands (fieldsForWrite (fs.itable i) buf.length offset) offset = true)

instance (fs : FsCtx) (b : Nat) : Decidable (fs.Uncovered b) :=
  inferInstanceAs (Decidable (∀ j < fs.sb.sbInodesCount.toNat, b ∉ (fs.itable j).blocks))

instance (fs : FsCtx) (i n : Nat) : Decidable (fs.GrowsInto i n) :=
  decidable_of_iff (fs.attaches i n = false ∧ Yields (getAvailableBit fs.sb fs.blockBits .data n)
    fun start => 0 ≤ start → ∀ b ∈ List.range' start.toNat n, fs.Uncovered b)
    ⟨fun ⟨a, b⟩ => ⟨a, b⟩, fun ⟨a, b⟩ => ⟨a, b⟩⟩

instance (fs : FsCtx) (event : Event) : Decidable (Sound fs event) :=
  decidable_of_iff (Documented fs event.call ∧ FindsSlot fs event ∧
    (OnRmdir fs event.call fun i => i ≠ 0) ∧
    (OnResize fs event.call fun i size =>
      0 ≤ size ∧ size < 2 ^ 31 ∧ fs.GrowsInto i (growthBlocks (fs.itable i) size)) ∧
    (OnEntry fs event.env event.call fun fs _ p =>
      fs.findIno (fs.itable p) (-1) = .ok none → fs.GrowsInto p 1) ∧
    OnWrite fs event.call fun i buf offset => offset + buf.length < 2 ^ 31 ∧
      (buf = [] ∨ offset = 0 ∨
        ExtentFs.lands (fieldsForWrite (fs.itable i) buf.length offset) offset = true))
    ⟨fun ⟨a, b, c, d, e, f⟩ => ⟨a, b, c, d, e, f⟩, fun ⟨a, b, c, d, e, f⟩ => ⟨a, b, c, d, e, f⟩⟩

section Apply

variable {fs : FsCtx} {env : Env} {call : Call}

theorem OnResize.holds {P : Nat → Int → Prop} (on : OnResize fs call P) {i : Nat} {size : Int}
    (walk : getInodeNum fs call.path 0 = .ok (i : Int))
    (asked : call.resizeTo (fs.itable i) = some size) : P i size :=
  on _ walk size asked

theorem OnEntry.holds {P : FsCtx → Nat → Nat → Prop} (on : OnEntry fs env call P) {ino p : Nat}
    {mode : BitVec 32} (new : call.newMode = some mode)
    (free : getAvailableBit fs.sb fs.inodeBits .inode (-1) = .ok (ino : Int))
    (walk : getInodeNum (fs.takeInode ino mode env.now) call.path 1 = .ok (p : Int)) :
    P (fs.takeInode ino mode env.now) ino p :=
  on mode new _ free _ walk

theorem OnUnlink.holds {P : Nat → Prop} {path : CString} (on : OnUnlink fs (.unlink path) P) {i : Nat}
    (walk : getInodeNum fs path 0 = .ok (i : Int)) : P i :=
  on _ walk

theorem OnRmdir.holds {P : Nat → Prop} {path : CString} (on : OnRmdir fs (.rmdir path) P) {i : Nat}
    (walk : getInodeNum fs path 0 = .ok (i : Int)) : P i :=
  on _ walk

theorem OnWrite.holds {P : Nat → List Byte → Nat → Prop} {path : CString} {buf : List Byte}
    {offset : Nat} (on : OnWrite fs (.write path buf offset) P) {i : Nat}
    (walk : getInodeNum fs path 0 = .ok (i : Int)) : P i buf offset :=
  on _ walk

end Apply

end ExtentFs
