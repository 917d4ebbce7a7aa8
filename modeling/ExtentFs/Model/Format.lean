import ExtentFs.Model.Util

namespace ExtentFs

open Base

def a1fsMagic : BitVec 64 := 0xC5C369A1C5C369A1#64

/-- Where the compiler puts the superblock fields. -/
def offMagic : Nat := 0
def offSize : Nat := 8
def offFirstDataBlock : Nat := 16
def offFirstEmptyDb : Nat := 17
def offTotalDataBlocks : Nat := 18
def offBlockBitmap : Nat := 19
def offInodeBitmap : Nat := 20
def offInodeTable : Nat := 21
def offFreeBlocksCount : Nat := 24
def offFreeInodesCount : Nat := 32
def offInodesCount : Nat := 40
def offUsedDirsCount : Nat := 48

namespace A1fsSuperblock

def read (image : Bytes) : A1fsSuperblock where
  magic := image.word64 offMagic
  size := (image.word64 offSize).toNat
  sbFirstDataBlock := (image offFirstDataBlock).toNat
  sbFirstEmptyDb := (image offFirstEmptyDb).toNat
  sbTotalDataBlocks := (image offTotalDataBlocks).toNat
  sbBlockBitmap := (image offBlockBitmap).toNat
  sbInodeBitmap := (image offInodeBitmap).toNat
  sbInodeTable := (image offInodeTable).toNat
  sbFreeBlocksCount := (image.word64 offFreeBlocksCount).toInt
  sbFreeInodesCount := (image.word64 offFreeInodesCount).toInt
  sbInodesCount := (image.word64 offInodesCount).toInt
  sbUsedDirsCount := (image.word64 offUsedDirsCount).toInt

end A1fsSuperblock

namespace A1fsExtent

def read (image : Bytes) (addr : Nat) : A1fsExtent where
  start := (image.word32 addr).toNat
  count := (image.word32 (addr + 4)).toInt.toNat
  size := (image.word32 (addr + 8)).toInt

end A1fsExtent

namespace A1fsInode

/-- The inode at an address; an `a1fs_inode` takes 256 bytes. -/
def read (image : Bytes) (addr : Nat) : A1fsInode where
  mode := image.word32 addr
  links := (image.word32 (addr + 4)).toNat
  size := (image.word64 (addr + 8)).toNat
  iMtime := ⟨image.word64 (addr + 16), image.word64 (addr + 24)⟩
  iExtent := fun i => if i < 12 then A1fsExtent.read image (addr + 32 + 12 * i) else ⟨0, 0, 0⟩
  lastUsedExtent := (image.word32 (addr + 176)).toInt
  lastUsedIndirect := (image.word32 (addr + 180)).toInt
  numEntries := (image.word32 (addr + 184)).toNat

/-- Write back the fields of an inode outside its extents. -/
def writeHeader (image : Bytes) (addr : Nat) (inode : A1fsInode) : Bytes :=
  let image := image.set32 addr inode.mode
  let image := image.set32 (addr + 4) (BitVec.ofNat 32 inode.links)
  let image := image.set64 (addr + 8) (BitVec.ofNat 64 inode.size)
  let image := image.set64 (addr + 16) inode.iMtime.tvSec
  let image := image.set64 (addr + 24) inode.iMtime.tvNsec
  let image := image.set32 (addr + 176) (BitVec.ofInt 32 inode.lastUsedExtent)
  let image := image.set32 (addr + 180) (BitVec.ofInt 32 inode.lastUsedIndirect)
  image.set32 (addr + 184) (BitVec.ofNat 32 inode.numEntries)

end A1fsInode

/-- `n / unit + (n % unit != 0)` in `size_t`, stored in an `int`. -/
def blocksFor (n unit : Nat) : Int := toInt (n / unit + (if n % unit ≠ 0 then 1 else 0) : Nat)

/-- The test that ends the sizing loop. -/
def enoughBitmap (blocksRemaining numDbmBlocks : Int) : Bool :=
  let quotient := (blocksRemaining - numDbmBlocks).tdiv 32768
  numDbmBlocks ≥ quotient + (if quotient ≠ 0 then 1 else 0)

/-- The loop over the candidates for `num_dbm_blocks`. -/
def sizeBitmap (blocksRemaining : Int) : (fuel : Nat) → (numDbmBlocks : Int) → Checked Int
  | 0, _ => .error .nonterminating
  | fuel + 1, numDbmBlocks =>
    if enoughBitmap blocksRemaining numDbmBlocks then .ok numDbmBlocks
    else sizeBitmap blocksRemaining fuel (numDbmBlocks + 1)

/-- The bytes from an address to the end of the image as a bitmap. -/
def bitmapFrom (image : Bytes) (size addr : Nat) : Bitmap where
  length := size - addr
  byte := fun k => image (addr + k)

def uint8 (x : Int) : Byte := BitVec.ofInt 8 x

/-- The superblock fields that are known before the root directory is made. -/
def layOut (image : Bytes) (nInodes : Nat) (numIbmBlocks numDbmBlocks numIblocks : Int) : Bytes :=
  let image := image.set64 offFreeInodesCount (BitVec.ofNat 64 nInodes)
  let image := image.set64 offInodesCount (BitVec.ofNat 64 nInodes)
  let image := image.set8 offInodeBitmap (uint8 1)
  let image := image.set8 offBlockBitmap (uint8 (1 + numIbmBlocks))
  let image := image.set8 offInodeTable (uint8 (1 + numIbmBlocks + numDbmBlocks))
  image.set8 offFirstDataBlock (uint8 (1 + numIbmBlocks + numDbmBlocks + numIblocks))

def writeRoot (image : Bytes) (addr : Nat) (now : Timespec) : Bytes :=
  let inode := createInode (A1fsInode.read image addr) (sIfdir ||| 0o777#32) now
  let image := inode.writeHeader image addr
  let inode := { A1fsInode.read image addr with
    iMtime := now, lastUsedExtent := -1, links := 2, numEntries := 0, size := 256 }
  inode.writeHeader image addr

/-- Mark the first free inode as used and make it the root directory. -/
def makeRoot (image : Bytes) (size : Nat) (now : Timespec) : Checked (Option Bytes) := do
  let sb := A1fsSuperblock.read image
  let bitsAddr := 4096 * sb.sbInodeBitmap
  let inodeBits := bitmapFrom image size bitsAddr
  let root ← getAvailableBit sb inodeBits .inode (-1)
  if root = -1 then return none
  else
    let (sb', bits) ← setBits sb inodeBits root.toNat .inode (-1) 1
    let image : Bytes := fun a =>
      if bitsAddr ≤ a ∧ a < size then bits.byte (a - bitsAddr) else image a
    let image := image.set64 offFreeInodesCount (BitVec.ofInt 64 sb'.sbFreeInodesCount)
    return some (writeRoot image (4096 * (image offInodeTable).toNat + 256 * root.toNat) now)

/-- The leftover members of the superblock. -/
def fillSuperblock (image : Bytes) (size : Nat) (blocksRemaining : Int) : Bytes :=
  let image := image.set64 offMagic a1fsMagic
  let image := image.set64 offSize (BitVec.ofNat 64 size)
  let image := image.set8 offTotalDataBlocks
    (BitVec.ofInt 8 (size / 4096 - (image offFirstDataBlock).toNat : Int))
  let image := image.set64 offFreeBlocksCount (BitVec.ofInt 64 blocksRemaining)
  image.set64 offUsedDirsCount 1#64

/-- `none` for an image that is refused; what was written into it is dropped. -/
def mkfs (image : Bytes) (size nInodes : Nat) (now : Timespec) : Checked (Option Bytes) := do
  if image.word64 offMagic = a1fsMagic then return none
  else
    let blocksRemaining ← intArith (toInt (size / 4096 : Nat) - 1)
    if blocksRemaining ≤ 0 then return none
    else
      let numIbmBlocks := blocksFor nInodes 32768
      let blocksRemaining ← intArith (blocksRemaining - numIbmBlocks)
      if blocksRemaining ≤ 0 then return none
      else
        let numIblocks := blocksFor nInodes 256
        let blocksRemaining ← intArith (blocksRemaining - numIblocks)
        if blocksRemaining ≤ 0 then return none
        else
          let numDbmBlocks ← sizeBitmap blocksRemaining (blocksRemaining.toNat + 1) 1
          let blocksRemaining ← intArith (blocksRemaining - numDbmBlocks)
          if blocksRemaining ≤ 0 then return none
          else
            let image := layOut image nInodes numIbmBlocks numDbmBlocks numIblocks
            match ← makeRoot image size now with
            | none => return none
            | some image => return some (fillSuperblock image size blocksRemaining)

/-- The context that `fs_ctx_init` sets up, each part cut to its own region. -/
def fsCtxInit (image : Bytes) (size : Nat) : FsCtx × Bool :=
  let sb := A1fsSuperblock.read image
  let inodeBitmap := 4096 * sb.sbInodeBitmap
  let blockBitmap := 4096 * sb.sbBlockBitmap
  let inodeTable := 4096 * sb.sbInodeTable
  let dataStart := 4096 * sb.sbFirstDataBlock
  let cut (addr length : Nat) : Bitmap :=
    { length := length, byte := fun k => if k < length then image (addr + k) else 0 }
  ({ size := size
     sb := sb
     inodeBits := cut inodeBitmap (blockBitmap - inodeBitmap)
     blockBits := cut blockBitmap (inodeTable - blockBitmap)
     itable := fun i =>
       if (i : Int) < sb.sbInodesCount then A1fsInode.read image (inodeTable + 256 * i)
       else A1fsInode.read (fun _ => 0) 0
     data := fun k => if k < size - dataStart then image (dataStart + k) else 0 },
   sb.magic == a1fsMagic)

end ExtentFs
