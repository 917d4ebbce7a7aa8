import Mathlib.Algebra.Ring.Int.Defs
import Mathlib.Algebra.Ring.Nat
import ExtentFs.Base.Checked
import ExtentFs.Base.Bitmap

namespace ExtentFs

open Base

/-- What keeps a call from returning. An access outside its own array or region and a
    signed overflow are undefined in C and end the run here; `badSlot` is an access to `i_extent`
    outside the slots 0 to 11, where compiled code would go on in the fields behind the array. -/
inductive Fault where
  | outOfBounds
  | badSlot
  | overflow
  | uninitialized
  | assertFailed
  | nonterminating
  deriving DecidableEq, Repr

abbrev Checked := Except Fault

def toInt (x : Int) : Int := x.bmod (2 ^ 32)

/-- The result of signed 32-bit arithmetic. -/
def intArith (x : Int) : Checked Int :=
  if -2 ^ 31 ≤ x ∧ x < 2 ^ 31 then .ok x else .error .overflow

theorem toInt_of_fits {x : Int} (low : -2 ^ 31 ≤ x) (high : x < 2 ^ 31) : toInt x = x := by
  rw [toInt, Int.bmod_def]
  split <;> omega

theorem toInt_bounds (x : Int) : -2 ^ 31 ≤ toInt x ∧ toInt x < 2 ^ 31 := by
  have low := Int.le_bmod (x := x) (m := 2 ^ 32) (by omega)
  have high := Int.bmod_lt (x := x) (m := 2 ^ 32) (by omega)
  simp only [toInt]
  omega

theorem toInt_natCast_le (n : Nat) : toInt n ≤ n := by
  rw [toInt, Int.bmod_def]
  split <;> omega

theorem intArith_ok {x y : Int} : intArith x = .ok y ↔ (-2 ^ 31 ≤ x ∧ x < 2 ^ 31) ∧ y = x := by
  rw [intArith, guard_eq_ok, Except.ok.injEq]
  exact and_congr_right fun _ => eq_comm

/-- A C string: its bytes before the terminator. -/
structure CString where
  bytes : List Byte
  noNul : 0#8 ∉ bytes
  deriving DecidableEq

structure Timespec where
  tvSec : BitVec 64
  tvNsec : BitVec 64
  deriving DecidableEq, Repr

structure A1fsSuperblock where
  magic : BitVec 64
  size : Nat
  sbFirstDataBlock : Nat
  sbFirstEmptyDb : Nat
  sbTotalDataBlocks : Nat
  sbBlockBitmap : Nat
  sbInodeBitmap : Nat
  sbInodeTable : Nat
  sbFreeBlocksCount : Int
  sbFreeInodesCount : Int
  sbInodesCount : Int
  sbUsedDirsCount : Int
  deriving DecidableEq

structure A1fsExtent where
  start : Nat
  count : Nat
  size : Int
  deriving DecidableEq

/-- `iExtent` has the slots 0 to 11; every access goes through a bounds check. -/
structure A1fsInode where
  mode : BitVec 32
  links : Nat
  size : Nat
  iMtime : Timespec
  iExtent : Nat → A1fsExtent
  lastUsedExtent : Int
  lastUsedIndirect : Int
  numEntries : Nat

/-- A mounted file system. The pointers of the C context lead to disjoint parts of one
    image; each part is a field. `data` starts at the first data block. -/
structure FsCtx where
  size : Nat
  sb : A1fsSuperblock
  inodeBits : Bitmap
  blockBits : Bitmap
  itable : Nat → A1fsInode
  data : Bytes

def sIfmt : BitVec 32 := 0o170000#32
def sIfdir : BitVec 32 := 0o040000#32
def sIfreg : BitVec 32 := 0o100000#32

def sIsdir (mode : BitVec 32) : Bool := mode &&& sIfmt == sIfdir
def sIsreg (mode : BitVec 32) : Bool := mode &&& sIfmt == sIfreg

namespace A1fsInode

def extentAt (inode : A1fsInode) (i : Nat) : Checked A1fsExtent :=
  if i < 12 then .ok (inode.iExtent i) else .error .badSlot

def setExtent (inode : A1fsInode) (i : Nat) (extent : A1fsExtent) : A1fsInode :=
  { inode with iExtent := fun k => if k = i then extent else inode.iExtent k }

/-- The slots that the loops `for (i = 0; i <= last_used_extent; i++)` visit. -/
def usedSlots (inode : A1fsInode) : List Nat := List.range (inode.lastUsedExtent + 1).toNat

end A1fsInode

namespace FsCtx

/-- Bytes from the first data block to the end of the image. -/
def dataSize (fs : FsCtx) : Nat := fs.size - 4096 * fs.sb.sbFirstDataBlock

def dataBlocks (fs : FsCtx) : Nat := fs.dataSize / 4096

def inodeAt (fs : FsCtx) (i : Int) : Checked A1fsInode :=
  if 0 ≤ i ∧ i < fs.sb.sbInodesCount then .ok (fs.itable i.toNat) else .error .outOfBounds

def setInode (fs : FsCtx) (i : Nat) (inode : A1fsInode) : FsCtx :=
  { fs with itable := fun k => if k = i then inode else fs.itable k }

/-- `A1FS_BLOCK_SIZE * j` in `int`, as an offset into the data region. -/
def blockOffset (j : Int) : Checked Int := intArith (4096 * j)

/-- `memset(addr, 0, length)`; a negative length becomes a huge `size_t`. -/
def clearBytes (fs : FsCtx) (addr length : Int) : Checked FsCtx :=
  if 0 ≤ addr ∧ 0 ≤ length ∧ addr + length ≤ fs.dataSize then
    .ok { fs with data := fs.data.fill addr.toNat length.toNat 0 }
  else .error .outOfBounds

def storeBytes (fs : FsCtx) (addr : Int) (bytes : List Byte) : Checked FsCtx :=
  if 0 ≤ addr ∧ addr + bytes.length ≤ fs.dataSize then
    .ok { fs with data := fs.data.store addr.toNat bytes }
  else .error .outOfBounds

end FsCtx

end ExtentFs
