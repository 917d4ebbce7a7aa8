import ExtentFs.Model.Types

namespace ExtentFs

open Base

inductive BitmapType where
  | inode
  | data
  deriving DecidableEq

def checkBitUsage (bitmap : Bitmap) (index : Nat) : Checked Bool :=
  let byte := index / 8
  let bit := index % 8
  if byte < bitmap.length then .ok (bitmap.byte byte &&& 1#8 <<< bit != 0#8)
  else .error .outOfBounds

/-- `bitmap[index / 8] ^= (1 << index % 8)`. -/
def flipBit (bitmap : Bitmap) (index : Nat) : Checked Bitmap :=
  if index / 8 < bitmap.length then
    .ok { bitmap with byte := fun k =>
      if k = index / 8 then bitmap.byte k ^^^ 1#8 <<< (index % 8) else bitmap.byte k }
  else .error .outOfBounds

/-- The loop over the inode bits; `room` is the number of iterations left. -/
def availableInode (bitmap : Bitmap) : (room i : Nat) → Checked Int
  | 0, _ => .ok (-1)
  | room + 1, i => do
    if ← checkBitUsage bitmap i then availableInode bitmap room (i + 1) else .ok i

/-- The loop over the data bits, with `room = max_index - i`. It returns the final
    `avail_db_index` and `i`. -/
def firstFit (bitmap : Bitmap) (extentSize : Int) :
    (room availDbIndex i count : Nat) → Checked (Nat × Nat)
  | 0, availDbIndex, i, _ => .ok (availDbIndex, i)
  | room + 1, availDbIndex, i, count =>
    if (count : Int) = extentSize then .ok (availDbIndex, i)
    else do
      if ← checkBitUsage bitmap i then firstFit bitmap extentSize room (i + 1) (i + 1) 0
      else firstFit bitmap extentSize room availDbIndex (i + 1) (count + 1)

def getAvailableBit (sb : A1fsSuperblock) (bitmap : Bitmap) (bmType : BitmapType)
    (extentSize : Int) : Checked Int :=
  if sb.sbFreeBlocksCount < extentSize then .ok (-1)
  else match bmType with
  | .inode =>
    if sb.sbFreeInodesCount = 0 then .ok (-1)
    else availableInode bitmap sb.sbInodesCount.toNat 0
  | .data => do
    let totalBlocks := toInt (sb.size / 4096 : Nat)
    let maxIndex := totalBlocks - 1
    let start := sb.sbFirstEmptyDb
    let (availDbIndex, i) ← firstFit bitmap extentSize (maxIndex - start).toNat start start 0
    if (i : Int) = maxIndex ∧ extentSize ≠ 1 then .ok (-1) else .ok availDbIndex

def flipDataBits (sb : A1fsSuperblock) (bitmap : Bitmap) (flipType : Nat) :
    List Nat → Checked (A1fsSuperblock × Bitmap)
  | [] => .ok (sb, bitmap)
  | i :: rest => do
    let bitmap ← flipBit bitmap i
    let count := if flipType = 0 then sb.sbFreeBlocksCount + 1 else sb.sbFreeBlocksCount - 1
    flipDataBits { sb with sbFreeBlocksCount := count } bitmap flipType rest

def setBits (sb : A1fsSuperblock) (bitmap : Bitmap) (index : Nat) (bmType : BitmapType)
    (extentSize : Int) (flipType : Nat) : Checked (A1fsSuperblock × Bitmap) :=
  match bmType with
  | .inode => do
    let bitmap ← flipBit bitmap index
    let count := if flipType = 0 then sb.sbFreeInodesCount + 1 else sb.sbFreeInodesCount - 1
    return ({ sb with sbFreeInodesCount := count }, bitmap)
  | .data => flipDataBits sb bitmap flipType (List.range' index extentSize.toNat)

/-- The extent slots keep what the inode's last user left in them. -/
def createInode (inode : A1fsInode) (mode : BitVec 32) (now : Timespec) : A1fsInode :=
  { inode with
    mode := mode
    links := 0
    size := 0
    iMtime := now
    lastUsedExtent := -1
    lastUsedIndirect := -1
    numEntries := 0 }

end ExtentFs
