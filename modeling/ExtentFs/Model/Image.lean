import ExtentFs.Base.Regions
import ExtentFs.Model.Requests

namespace ExtentFs

open Base

namespace A1fsSuperblock

/-- The fields at their places in an image. -/
def write (image : Bytes) (sb : A1fsSuperblock) : Bytes :=
  let image := image.set64 offMagic sb.magic
  let image := image.set64 offSize (BitVec.ofNat 64 sb.size)
  let image := image.set8 offFirstDataBlock (BitVec.ofNat 8 sb.sbFirstDataBlock)
  let image := image.set8 offFirstEmptyDb (BitVec.ofNat 8 sb.sbFirstEmptyDb)
  let image := image.set8 offTotalDataBlocks (BitVec.ofNat 8 sb.sbTotalDataBlocks)
  let image := image.set8 offBlockBitmap (BitVec.ofNat 8 sb.sbBlockBitmap)
  let image := image.set8 offInodeBitmap (BitVec.ofNat 8 sb.sbInodeBitmap)
  let image := image.set8 offInodeTable (BitVec.ofNat 8 sb.sbInodeTable)
  let image := image.set64 offFreeBlocksCount (BitVec.ofInt 64 sb.sbFreeBlocksCount)
  let image := image.set64 offFreeInodesCount (BitVec.ofInt 64 sb.sbFreeInodesCount)
  let image := image.set64 offInodesCount (BitVec.ofInt 64 sb.sbInodesCount)
  image.set64 offUsedDirsCount (BitVec.ofInt 64 sb.sbUsedDirsCount)

end A1fsSuperblock

def A1fsExtent.write (image : Bytes) (addr : Nat) (extent : A1fsExtent) : Bytes :=
  let image := image.set32 addr (BitVec.ofNat 32 extent.start)
  let image := image.set32 (addr + 4) (BitVec.ofNat 32 extent.count)
  image.set32 (addr + 8) (BitVec.ofInt 32 extent.size)

namespace A1fsInode

/-- The first `n` slots of `i_extent`. -/
def writeExtents (image : Bytes) (addr : Nat) (inode : A1fsInode) (n : Nat) : Bytes :=
  (List.range n).foldl (fun image k => (inode.iExtent k).write image (addr + 32 + 12 * k)) image

def write (image : Bytes) (addr : Nat) (inode : A1fsInode) : Bytes :=
  inode.writeExtents (inode.writeHeader image addr) addr 12

end A1fsInode

namespace FsCtx

/-- The first `n` inodes of the inode table. -/
def writeInodes (image : Bytes) (addr : Nat) (itable : Nat → A1fsInode) (n : Nat) : Bytes :=
  (List.range n).foldl (fun image i => (itable i).write image (addr + 256 * i)) image

/-- The bytes of the mapped image: each part at its place, the other bytes as they were. -/
def image (rest : Bytes) (fs : FsCtx) : Bytes :=
  let image := fs.sb.write rest
  let image := image.paste (4096 * fs.sb.sbInodeBitmap) fs.inodeBits.length fs.inodeBits.byte
  let image := image.paste (4096 * fs.sb.sbBlockBitmap) fs.blockBits.length fs.blockBits.byte
  let image := writeInodes image (4096 * fs.sb.sbInodeTable) fs.itable fs.sb.sbInodesCount.toNat
  image.paste (4096 * fs.sb.sbFirstDataBlock) fs.dataSize fs.data

end FsCtx

/-- An image file that can be opened and mapped. -/
structure ImageFile where
  bytes : Bytes
  size : Nat

/-- `map_file`: the image of a file whose size is valid. -/
def mapFile (file : ImageFile) (blockSize : Nat) : Option Bytes :=
  if file.size = 0 then none
  else if file.size % blockSize ≠ 0 then none
  else some file.bytes

/-- `a1fs_init` of a mount that is not for printing help. -/
def a1fsInit (file : ImageFile) : Option FsCtx :=
  (mapFile file 4096).bind fun image =>
    let (fs, valid) := fsCtxInit image file.size
    if valid then some fs else none

/-- `a1fs_destroy`: the shared mapping leaves its bytes in the file. -/
def a1fsDestroy (rest : Bytes) (fs : FsCtx) : ImageFile := ⟨fs.image rest, fs.size⟩

/-- The signed fields that calls add to, without looking, have not overflowed. -/
structure FsCtx.InRange (fs : FsCtx) : Prop where
  freeBlocks : -2 ^ 63 ≤ fs.sb.sbFreeBlocksCount ∧ fs.sb.sbFreeBlocksCount < 2 ^ 63
  usedDirs : -2 ^ 63 ≤ fs.sb.sbUsedDirsCount ∧ fs.sb.sbUsedDirsCount < 2 ^ 63
  extents : ∀ i : Nat, (i : Int) < fs.sb.sbInodesCount → ∀ k < 12,
    -2 ^ 31 ≤ ((fs.itable i).iExtent k).size ∧ ((fs.itable i).iExtent k).size < 2 ^ 31

instance (fs : FsCtx) : Decidable fs.InRange :=
  decidable_of_iff ((-2 ^ 63 ≤ fs.sb.sbFreeBlocksCount ∧ fs.sb.sbFreeBlocksCount < 2 ^ 63) ∧
      (-2 ^ 63 ≤ fs.sb.sbUsedDirsCount ∧ fs.sb.sbUsedDirsCount < 2 ^ 63) ∧
      ∀ i < fs.sb.sbInodesCount.toNat, ∀ k < 12,
        -2 ^ 31 ≤ ((fs.itable i).iExtent k).size ∧ ((fs.itable i).iExtent k).size < 2 ^ 31)
    ⟨fun ⟨free, used, extents⟩ => ⟨free, used, fun i inside => extents i (by omega)⟩,
      fun fits => ⟨fits.freeBlocks, fits.usedDirs, fun i inside => fits.extents i (by omega)⟩⟩

/-- An image file and, while it is mounted, the driver over it. The mapping is of the file's bytes at
    the time of the mount, with the parts of the file system written over them. -/
inductive Session where
  | unmounted (file : ImageFile)
  | mounted (mapping : Bytes) (fs : FsCtx)

inductive SessionEvent where
  | mount
  | exchange (x : Exchange)
  | unmount

/-- A request that leaves a field beyond its type ends the run. -/
inductive Session.Step : Session → SessionEvent → Session → Prop
  | mount {file : ImageFile} {fs : FsCtx} (init : a1fsInit file = some fs) :
      Step (.unmounted file) .mount (.mounted file.bytes fs)
  | exchange {mapping : Bytes} {fs fs' : FsCtx} {x : Exchange} (served : driver.Step fs x fs')
      (fits : fs'.InRange) : Step (.mounted mapping fs) (.exchange x) (.mounted mapping fs')
  | unmount {mapping : Bytes} {fs : FsCtx} :
      Step (.mounted mapping fs) .unmount (.unmounted (a1fsDestroy mapping fs))

/-- What `mkfs -z` makes of a file, with disjoint regions. -/
def Formatted (file : ImageFile) : Prop :=
  ∃ blocks nInodes now,
    0 < blocks ∧ 4096 * blocks < 2 ^ 64 ∧ 0 < nInodes ∧ nInodes < 2 ^ 64 ∧
    file.size = 4096 * blocks ∧
    mkfs (fun _ => 0) file.size nInodes now = .ok (some file.bytes) ∧
    RegionsDisjoint (A1fsSuperblock.read file.bytes) file.size nInodes

/-- A formatted image file that is mounted, used and unmounted, any number of times. -/
def sessions (file : ImageFile) : TransitionSystem Session SessionEvent where
  Initial s := s = .unmounted file
  Step := Session.Step

end ExtentFs
