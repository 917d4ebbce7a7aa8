import ExtentFs.Model.Helper

namespace ExtentFs

open Base

/-- What a callback takes from outside: the clock and the thread's `errno` on entry. -/
structure Env where
  now : Timespec
  errno : Nat

def eNoEnt : Int := 2
def eNotDir : Int := 20
def eNoSpc : Int := 28
def eNameTooLong : Int := 36
def eNotEmpty : Int := 39

def a1fsNameMax : Nat := 252
def a1fsPathMax : Nat := 4096

def toUlong (x : Int) : Nat := (x % 2 ^ 64).toNat

structure Statvfs where
  fBsize : Nat
  fFrsize : Nat
  fBlocks : Nat
  fBfree : Nat
  fBavail : Nat
  fFiles : Nat
  fFfree : Nat
  fFavail : Nat
  fNamemax : Nat

def a1fsStatfs (fs : FsCtx) : Statvfs where
  fBsize := 4096
  fFrsize := 4096
  fBlocks := fs.sb.size / 4096
  fBfree := toUlong fs.sb.sbFreeBlocksCount
  fBavail := toUlong fs.sb.sbFreeBlocksCount
  fFiles := toUlong fs.sb.sbInodesCount
  fFfree := toUlong fs.sb.sbFreeInodesCount
  fFavail := toUlong fs.sb.sbFreeInodesCount
  fNamemax := a1fsNameMax

structure Stat where
  stMode : BitVec 32
  stNlink : Nat
  stSize : Nat
  stBlocks : Nat
  stMtim : Timespec

/-- The result and, when it is 0, the attributes. -/
def a1fsGetattr (fs : FsCtx) (path : CString) : Checked (Int × Option Stat) := do
  if path.bytes.length ≥ a1fsPathMax then return (-eNameTooLong, none)
  else if path.bytes.head? ≠ some slash then return (-eNotDir, none)
  else
    let currInode ← getInodeNum fs path 0
    if currInode < 0 then return (-eNoEnt, none)
    else
      let inode ← fs.inodeAt currInode
      return (0, some
        { stMode := inode.mode
          stNlink := inode.links
          stSize := inode.size
          stBlocks := inode.size / 512 + 256
          stMtim := inode.iMtime })

/-- The common body of `a1fs_mkdir` and `a1fs_create`, which differ in the answer for a
    missing parent. -/
def newEntry (env : Env) (fs : FsCtx) (path : CString) (mode : BitVec 32) (noParent : Int) :
    Checked (FsCtx × Int) := do
  let index ← getAvailableBit fs.sb fs.inodeBits .inode (-1)
  if index = -1 then return (fs, -eNoSpc)
  else
    let i := index.toNat
    let (sb, bits) ← setBits fs.sb fs.inodeBits i .inode (-1) 1
    let fs := { fs with sb := sb, inodeBits := bits }
    let fs := fs.setInode i (createInode (fs.itable i) mode env.now)
    let parInode ← getInodeNum fs path 1
    if parInode < 0 then return (fs, noParent)
    else
      let _ ← fs.inodeAt parInode
      let (fs, added) ← addDentry fs parInode.toNat i (strrchr path.bytes) env.now
      if added < 0 then return (fs, -env.errno) else return (fs, 0)

def a1fsMkdir (env : Env) (fs : FsCtx) (path : CString) (mode : BitVec 32) :
    Checked (FsCtx × Int) :=
  newEntry env fs path (mode ||| sIfdir) (-eNoEnt)

def a1fsCreate (env : Env) (fs : FsCtx) (path : CString) (mode : BitVec 32) :
    Checked (FsCtx × Int) :=
  if sIsreg mode then newEntry env fs path mode (-env.errno) else .error .assertFailed

def resetInode (inode : A1fsInode) (now : Timespec) : A1fsInode :=
  { inode with
    iMtime := now
    links := 0
    size := 0
    lastUsedExtent := -1
    lastUsedIndirect := -1
    numEntries := 0 }

/-- The entry at `addr` is freed and its directory told. -/
def clearDentry (fs : FsCtx) (parent addr : Nat) (dirsRemoved : Int) (now : Timespec) : FsCtx :=
  let data := (fs.data.set32 addr (-1#32)).set8 (addr + 4) 0#8
  let dir := fs.itable parent
  let dir := { dir with
    iMtime := now
    numEntries := (dir.numEntries + 2 ^ 32 - 1) % 2 ^ 32
    links := (dir.links + 2 ^ 32 - 1) % 2 ^ 32 }
  let sb := { fs.sb with
    sbUsedDirsCount := fs.sb.sbUsedDirsCount - dirsRemoved
    sbFreeBlocksCount := fs.sb.sbFreeBlocksCount + 1 }
  { fs.setInode parent dir with sb := sb, data := data }

/-- The common end of `a1fs_rmdir` and `a1fs_unlink`: reset the inode, flip its bit and clear
    its entry in the parent. Only `a1fs_rmdir` counts directories. -/
def removeEntry (env : Env) (fs : FsCtx) (path : CString) (inoToRm : Nat) (dirsRemoved : Int) :
    Checked (FsCtx × Int) := do
  let fs := fs.setInode inoToRm (resetInode (fs.itable inoToRm) env.now)
  if ← checkBitUsage fs.inodeBits inoToRm then
    let (sb, bits) ← setBits fs.sb fs.inodeBits inoToRm .inode (-1) 0
    let fs := { fs with sb := sb, inodeBits := bits }
    let parent ← getInodeNum fs path 1
    if parent < 0 then return (fs, -env.errno)
    else
      let dir ← fs.inodeAt parent
      match ← fs.findIno dir inoToRm with
      | some addr => return (clearDentry fs parent.toNat addr dirsRemoved env.now, 0)
      | none => return (fs, -env.errno)
  else return (fs, -env.errno)

def a1fsRmdir (env : Env) (fs : FsCtx) (path : CString) : Checked (FsCtx × Int) := do
  let inoToRm ← getInodeNum fs path 0
  let inode ← fs.inodeAt inoToRm
  if inode.numEntries > 0 then return (fs, -eNotEmpty)
  else removeEntry env fs path inoToRm.toNat 1

/-- The loop that frees the extents of a file; it gives up at an extent whose first bit is
    clear. -/
def freeExtents (inode : A1fsInode) :
    List Nat → A1fsSuperblock → Bitmap → Checked (A1fsSuperblock × Bitmap × Bool)
  | [], sb, bits => .ok (sb, bits, true)
  | i :: rest, sb, bits => do
    let extent ← inode.extentAt i
    if ← checkBitUsage bits extent.start then
      let (sb, bits) ← setBits sb bits extent.start .data extent.count 0
      freeExtents inode rest sb bits
    else return (sb, bits, false)

def a1fsUnlink (env : Env) (fs : FsCtx) (path : CString) : Checked (FsCtx × Int) := do
  let inoToRm ← getInodeNum fs path 0
  let inode ← fs.inodeAt inoToRm
  let (sb, bits, freed) ← if inode.size ≠ 0 ∨ inode.lastUsedExtent ≠ -1
    then freeExtents inode inode.usedSlots fs.sb fs.blockBits
    else pure (fs.sb, fs.blockBits, true)
  let fs := { fs with sb := sb, blockBits := bits }
  if freed then removeEntry env fs path inoToRm.toNat 0 else return (fs, -env.errno)

def grow (fs : FsCtx) (i : Nat) (bytes : Int) : FsCtx :=
  let inode := fs.itable i
  fs.setInode i { inode with size := toUlong (inode.size + bytes) }

def lastDbIndex (inode : A1fsInode) : Checked Int := do
  if inode.lastUsedExtent < 0 then .error .outOfBounds
  else
    let last ← inode.extentAt inode.lastUsedExtent.toNat
    return toInt ((last.start + last.count : Int) - 1)

/-- Case 2 of `a1fs_truncate`: the file has extents and grows. -/
def extendFile (env : Env) (fuel : Nat) (fs : FsCtx) (curInode : Nat) (size : Int) :
    Checked (FsCtx × Int) := do
  let inode := fs.itable curInode
  let curSize := toInt inode.size
  let numBlocks := curSize.tdiv 4096
  let leftoverBytes := curSize - numBlocks * 4096
  let bytesTilFull := 4096 - leftoverBytes
  if size < bytesTilFull then
    let (fs, helped) ← truncateHelper fuel fs curInode size env.now
    if helped < 0 then return (fs, -env.errno)
    else return (grow fs curInode (size - curSize), 0)
  else if size > bytesTilFull then
    let remainingBytes := toInt (size - inode.size)
    let dbAddr ← FsCtx.blockOffset (← lastDbIndex inode)
    let fs ← fs.clearBytes (dbAddr + leftoverBytes) bytesTilFull
    let remainingBytes ← intArith (remainingBytes - bytesTilFull)
    let (fs, helped) ← if remainingBytes ≠ 0
      then truncateHelper fuel fs curInode remainingBytes env.now else pure (fs, 0)
    if helped < 0 then return (fs, -env.errno)
    else return (grow fs curInode (toInt (size - (fs.itable curInode).size)), 0)
  else return (fs, -1)

def releaseBlocks (sb : A1fsSuperblock) (bits : Bitmap) :
    List Nat → (numDbToUnlink : Int) → Checked (A1fsSuperblock × Bitmap × Int)
  | [], numDbToUnlink => .ok (sb, bits, numDbToUnlink)
  | j :: rest, numDbToUnlink =>
    if numDbToUnlink = 0 then .ok (sb, bits, numDbToUnlink)
    else do
      let (sb, bits) ← setBits sb bits j .data 1 0
      releaseBlocks sb bits rest (numDbToUnlink - 1)

def releaseExtents (inode : A1fsInode) (sb : A1fsSuperblock) (bits : Bitmap) :
    List Nat → (numDbToUnlink : Int) → Checked (A1fsSuperblock × Bitmap)
  | [], _ => .ok (sb, bits)
  | i :: rest, numDbToUnlink =>
    if numDbToUnlink = 0 then .ok (sb, bits)
    else do
      let extent ← inode.extentAt i
      let (sb, bits, numDbToUnlink) ←
        releaseBlocks sb bits (List.range' extent.start extent.count).reverse numDbToUnlink
      releaseExtents inode sb bits rest numDbToUnlink

def sizeBlocks (size : Int) : Int :=
  let blocks := toInt (size.tdiv 4096)
  if size.tmod 4096 ≠ 0 then blocks + 1 else blocks

/-- Case 3 of `a1fs_truncate`. The extents keep their counts. -/
def shrinkFile (fs : FsCtx) (curInode : Nat) (size : Int) : Checked (FsCtx × Int) := do
  let inode := fs.itable curInode
  let numDbToUnlink ← intArith (sizeBlocks (toInt inode.size) - sizeBlocks size)
  let (sb, bits) ←
    releaseExtents inode fs.sb fs.blockBits inode.usedSlots.reverse numDbToUnlink
  let inode := if size = 0 then { inode with lastUsedExtent := -1, lastUsedIndirect := -1 } else inode
  let fs := fs.setInode curInode { inode with size := toUlong size }
  return ({ fs with sb := sb, blockBits := bits }, 0)

def a1fsTruncate (env : Env) (fuel : Nat) (fs : FsCtx) (path : CString) (size : Int) :
    Checked (FsCtx × Int) := do
  let curInode ← getInodeNum fs path 0
  let inode ← fs.inodeAt curInode
  let i := curInode.toNat
  let curSize := toInt inode.size
  if curSize = size then return (fs, 0)
  else if inode.lastUsedExtent = -1 then
    let (fs, helped) ← truncateHelper fuel fs i size env.now
    if helped < 0 then return (fs, -env.errno)
    else return (fs.setInode i { fs.itable i with size := toUlong size }, 0)
  else if curSize < size then extendFile env fuel fs i size
  else shrinkFile fs i size

/-- The loop that copies the buffer. A block number is multiplied in `uint32_t`; a chunk
    that fills its extent is taken from the start of the buffer. -/
def copyExtents (inode : A1fsInode) (buf : List Byte) :
    (slotsLeft : Nat) → FsCtx → (curExtent : Nat) →
    (remainingOffset remainingSize written : Int) → Checked FsCtx
  | 0, fs, _, _, remainingSize, _ => if remainingSize > 0 then .error .badSlot else .ok fs
  | slotsLeft + 1, fs, curExtent, remainingOffset, remainingSize, written =>
    if remainingSize > 0 then do
      let extent ← inode.extentAt curExtent
      let extentData : Int := (extent.start * 4096 % 2 ^ 32 : Nat) + remainingOffset
      let room := (← intArith (extent.count * 4096)) - remainingOffset
      if remainingSize > room then
        if room < 0 then .error .outOfBounds
        else
          let fs ← fs.storeBytes (extentData + remainingOffset) (buf.take room.toNat)
          copyExtents inode buf slotsLeft fs (curExtent + 1) 0 (remainingSize - room) room
      else
        fs.storeBytes extentData ((buf.drop written.toNat).take remainingSize.toNat)
    else .ok fs

def a1fsWrite (env : Env) (fuel : Nat) (fs : FsCtx) (path : CString) (buf : List Byte)
    (offset : Nat) : Checked (FsCtx × Int) := do
  let inodeNum ← getInodeNum fs path 0
  if inodeNum < 0 then return (fs, -env.errno)
  else
    let inode ← fs.inodeAt inodeNum
    let (fs, truncated) ← if offset + buf.length > inode.size
      then a1fsTruncate env fuel fs path (buf.length + offset : Nat) else pure (fs, 0)
    if truncated ≠ 0 then return (fs, -eNoSpc)
    else
      let inode := fs.itable inodeNum.toNat
      let remainingOffset := toInt offset
      let (curExtent, found) ← findOffsetExtent inode remainingOffset 12 0
      if found < 0 then return (fs, -env.errno)
      else
        let fs ← copyExtents inode buf (12 - curExtent) fs curExtent remainingOffset
          (toInt buf.length) 0
        return (fs, toInt buf.length)

/-- The name at an address, up to its terminator; `room` bounds the bytes read. -/
def cstringFrom (fs : FsCtx) : (room addr : Nat) → Checked (List Byte)
  | 0, _ => .error .outOfBounds
  | room + 1, addr =>
    if fs.data addr = 0#8 then .ok []
    else do return fs.data addr :: (← cstringFrom fs room (addr + 1))

def nameAt (fs : FsCtx) (addr : Nat) : Checked (List Byte) :=
  cstringFrom fs (fs.dataSize - addr) addr

/-- The result and the names given to `filler`, "." and ".." last. -/
def a1fsReaddir (env : Env) (fs : FsCtx) (path : CString) : Checked (Int × List (List Byte)) := do
  if path.bytes.head? ≠ some slash then return (-eNotDir, [])
  else
    let currInode ← getInodeNum fs path 0
    if currInode < 0 then return (-env.errno, [])
    else
      let dir ← fs.inodeAt currInode
      let names ← dir.usedSlots.flatMapM fun i => do
        let extent ← dir.extentAt i
        (List.range' extent.start extent.count).flatMapM fun j =>
          (List.range' 0 16 256).flatMapM fun k => do
            let addr ← fs.dentryAddr j k
            if fs.data (addr + 4) ≠ 0#8 then return [← nameAt fs (addr + 4)] else return []
      return (0, names ++ [[46#8], [46#8, 46#8]])

/-- The address of a byte of an extent, its block number multiplied in `uint32_t`. -/
def extentData (start : Nat) (offset : Int) : Int := (start * 4096 % 2 ^ 32 : Nat) + offset

def FsCtx.loadBytes (fs : FsCtx) (addr : Int) (length : Nat) : Checked (List Byte) :=
  if 0 ≤ addr ∧ addr + length ≤ fs.dataSize then
    .ok ((List.range length).map fun k => fs.data (addr.toNat + k))
  else .error .outOfBounds

/-- The bytes that have been written into a caller's buffer. -/
abbrev Buffer := Nat → Option Byte

/-- `memcpy(&buf[index], ..)` into a buffer of `size` bytes. -/
def Buffer.copy (buf : Buffer) (size : Nat) (index : Int) (bytes : List Byte) : Checked Buffer :=
  if 0 ≤ index ∧ index + bytes.length ≤ size then
    .ok fun k => if index.toNat ≤ k ∧ k < index.toNat + bytes.length
      then bytes[k - index.toNat]? else buf k
  else .error .outOfBounds

/-- The loop that fills the buffer. From an extent that does not hold the rest, `size` bytes are
    copied to the start of the buffer. -/
def readExtents (fs : FsCtx) (inode : A1fsInode) (size : Nat) :
    (slotsLeft : Nat) → Buffer → (curExtent : Nat) → (remainingOffset remainingSize read : Int) →
      Checked Buffer
  | 0, buf, _, _, remainingSize, _ => if remainingSize > 0 then .error .badSlot else .ok buf
  | slotsLeft + 1, buf, curExtent, remainingOffset, remainingSize, read =>
    if remainingSize > 0 then do
      let extent ← inode.extentAt curExtent
      let addr := extentData extent.start remainingOffset
      let room := (← intArith (extent.count * 4096)) - remainingOffset
      if remainingSize > room then
        let buf ← buf.copy size 0 (← fs.loadBytes addr size)
        readExtents fs inode size slotsLeft buf (curExtent + 1) 0 (← intArith (remainingSize - room))
          room
      else
        buf.copy size read (← fs.loadBytes addr remainingSize.toNat)
    else .ok buf

/-- The result and the bytes written into a buffer of `size` bytes. -/
def a1fsRead (env : Env) (fs : FsCtx) (path : CString) (size offset : Nat) :
    Checked (Int × Buffer) := do
  let inodeNum ← getInodeNum fs path 0
  if inodeNum < 0 then return (-env.errno, fun _ => none)
  else
    let inode ← fs.inodeAt inodeNum
    if (offset : Int) > toInt inode.size then return (0, fun _ => none)
    else
      let (curExtent, found) ← findOffsetExtent inode (toInt offset) 12 0
      if found < 0 then return (-env.errno, fun _ => none)
      else
        let buf ← readExtents fs inode size (12 - curExtent) (fun _ => none) curExtent (toInt offset)
          (toInt size) 0
        return (toInt size, buf)

/-- `times` holds the access time and the modification time. -/
def a1fsUtimens (env : Env) (fs : FsCtx) (path : CString) (times : Timespec × Timespec) :
    Checked (FsCtx × Int) := do
  let inodeNum ← getInodeNum fs path 0
  if inodeNum < 0 then return (fs, -env.errno)
  else
    let inode ← fs.inodeAt inodeNum
    return (fs.setInode inodeNum.toNat { inode with iMtime := times.2 }, 0)

end ExtentFs
