import ExtentFs.Model.Util

namespace ExtentFs

open Base

def slash : Byte := 47#8

/-- The token a string starts with, empty if it starts with a delimiter, and the tokens
    after it. -/
def splitToken : List Byte → List Byte × List (List Byte)
  | [] => ([], [])
  | c :: cs =>
    let (token, rest) := splitToken cs
    if c = slash then ([], if token = [] then rest else token :: rest)
    else (c :: token, rest)

/-- What the successive calls of `strtok(.., "/")` return. -/
def strtok (path : List Byte) : List (List Byte) :=
  let (token, rest) := splitToken path
  if token = [] then rest else token :: rest

/-- `strrchr(path, '/') + 1`, for a path with a slash. -/
def strrchr (path : List Byte) : List Byte := (path.reverse.takeWhile (· ≠ slash)).reverse

namespace FsCtx

def byteAt (fs : FsCtx) (addr : Nat) : Checked Byte :=
  if addr < fs.dataSize then .ok (fs.data addr) else .error .outOfBounds

/-- `strcmp(addr, token) == 0`; the comparison stops at the first difference. -/
def strcmp (fs : FsCtx) : (addr : Nat) → (token : List Byte) → Checked Bool
  | addr, [] => do return (← fs.byteAt addr) == 0#8
  | addr, c :: cs => do
    if (← fs.byteAt addr) = c then strcmp fs (addr + 1) cs else return false

/-- The address of the entry at byte `k` of block `j`. -/
def dentryAddr (fs : FsCtx) (j k : Nat) : Checked Nat := do
  let offset ← blockOffset j
  if offset + k + 256 ≤ fs.dataSize then .ok (offset.toNat + k) else .error .outOfBounds

def dentryIno (fs : FsCtx) (addr : Nat) : Int := (fs.data.word32 addr).toInt

/-- The loops over the extents of a directory, the blocks of an extent and the entries of a
    block, left at the first entry for which the body returns a value. -/
def scanDentries (fs : FsCtx) (dir : A1fsInode) {β : Type} (body : Nat → Checked (Option β)) :
    Checked (Option β) :=
  dir.usedSlots.findSomeM? fun i => do
    let extent ← dir.extentAt i
    (List.range' extent.start extent.count).findSomeM? fun j =>
      (List.range' 0 16 256).findSomeM? fun k => do
        let addr ← fs.dentryAddr j k
        body addr

/-- The first entry with a given inode number; -1 marks a free entry. -/
def findIno (fs : FsCtx) (dir : A1fsInode) (ino : Int) : Checked (Option Nat) :=
  fs.scanDentries dir fun addr => return if fs.dentryIno addr = ino then some addr else none

end FsCtx

def inodeLookup (fs : FsCtx) (parInode : Int) (token : List Byte) : Checked Int :=
  if parInode = -1 then return -1
  else do
    let dir ← fs.inodeAt parInode
    let found ← fs.scanDentries dir fun addr => do
      if ← fs.strcmp (addr + 4) token then return some (fs.dentryIno addr) else return none
    return found.getD (-1)

def walkTokens (fs : FsCtx) : List (List Byte) → (parInode currInode : Int) → Checked (Int × Int)
  | [], parInode, currInode => .ok (parInode, currInode)
  | token :: rest, parInode, currInode => do
    let parInode := if currInode ≠ -1 then currInode else parInode
    let currInode ← inodeLookup fs parInode token
    walkTokens fs rest parInode currInode

def getInodeNum (fs : FsCtx) (path : CString) (tog : Nat) : Checked Int := do
  let (parInode, currInode) ← walkTokens fs (strtok path.bytes) 0 0
  return if tog = 1 then parInode else currInode

/-- The loop over the blocks after the last extent; it stops at the first one in use. -/
def anyInUse (bitmap : Bitmap) : List Nat → Checked Bool
  | [] => .ok false
  | i :: rest => do
    if ← checkBitUsage bitmap i then return true else anyInUse bitmap rest

/-- The answer, the index of the last extent and the block after it. The case of an
    indirect block starts by reading `i_extent[12]`. -/
def attachable (fs : FsCtx) (inodeIndex : Nat) (extentCount : Nat) : Checked (Bool × Nat × Nat) :=
  let inode := fs.itable inodeIndex
  if inode.lastUsedIndirect ≠ -1 ∨ inode.lastUsedExtent < 0 then .error .badSlot
  else do
    let index := inode.lastUsedExtent.toNat
    let last ← inode.extentAt index
    let after := last.start + last.count
    let largeEnough ← anyInUse fs.blockBits (List.range' after extentCount)
    return (largeEnough, index, after)

def setDbExtent (inode : A1fsInode) (extentIndex extentStart extentCount : Nat) (new : Bool)
    (now : Timespec) : Checked A1fsInode := do
  let old ← inode.extentAt extentIndex
  let extent : A1fsExtent :=
    if new then ⟨extentStart, extentCount, 0⟩ else { old with count := old.count + extentCount }
  return { inode.setExtent extentIndex extent with iMtime := now }

def freeDentry (fs : FsCtx) (start k : Nat) : Checked FsCtx := do
  let addr ← fs.dentryAddr start k
  return { fs with data := fs.data.set32 addr (-1#32) }

/-- The entries that are initialised are those of the extent's first block. -/
def setDirbExtent (fs : FsCtx) (inodeIndex extentIndex extentStart extentCount : Nat) (new : Bool)
    (now : Timespec) : Checked FsCtx := do
  let inode ← setDbExtent (fs.itable inodeIndex) extentIndex extentStart extentCount new now
  let start := (inode.iExtent extentIndex).start
  (List.range' 0 16 256).foldlM (fun fs k => freeDentry fs start k) (fs.setInode inodeIndex inode)

inductive BlockType where
  | data
  | directory
  deriving DecidableEq

/-- The common end of the branches: write the extent slot of a file or a directory. -/
def placeExtent (fs : FsCtx) (inodeIndex extentIndex extentStart extentCount : Nat) (new : Bool)
    (dbType : BlockType) (now : Timespec) : Checked (FsCtx × Nat) := do
  match dbType with
  | .data =>
    let inode ← setDbExtent (fs.itable inodeIndex) extentIndex extentStart extentCount new now
    return (fs.setInode inodeIndex inode, extentStart)
  | .directory =>
    let fs ← setDirbExtent fs inodeIndex extentIndex extentStart extentCount new now
    return (fs, extentStart)

def setLastUsedExtent (fs : FsCtx) (inodeIndex : Nat) (index : Int) : FsCtx :=
  fs.setInode inodeIndex { fs.itable inodeIndex with lastUsedExtent := index }

def allocateDataBlks (fs : FsCtx) (inodeIndex dataIndex extentSize : Nat) (dbType : BlockType)
    (now : Timespec) : Checked (FsCtx × Nat) :=
  if (fs.itable inodeIndex).lastUsedExtent = -1 then
    placeExtent (setLastUsedExtent fs inodeIndex 0) inodeIndex 0 dataIndex extentSize true dbType now
  else do
    let (attach, index, after) ← attachable fs inodeIndex extentSize
    if attach then placeExtent fs inodeIndex index after extentSize false dbType now
    else
      let next := index + 1
      placeExtent (setLastUsedExtent fs inodeIndex next) inodeIndex next dataIndex extentSize true
        dbType now

def makeDentryBlock (fs : FsCtx) (directoryInodeNum : Nat) (now : Timespec) :
    Checked (FsCtx × Int) := do
  let available ← getAvailableBit fs.sb fs.blockBits .data 1
  if available < 0 then return (fs, -1)
  else
    let (fs, block) ← allocateDataBlks fs directoryInodeNum available.toNat 1 .directory now
    let (sb, bits) ← setBits fs.sb fs.blockBits block .data 1 1
    return ({ fs with sb := sb, blockBits := bits }, 0)

/-- Fill in the entry found free, then the metadata of the directory. -/
def writeDentry (fs : FsCtx) (directoryInodeNum : Nat) (dentryInodeNum : Nat) (name : List Byte)
    (addr : Nat) (now : Timespec) : Checked FsCtx := do
  let fs ← fs.storeBytes (addr + 4) (name ++ [0#8])
  let data := fs.data.set32 addr (BitVec.ofNat 32 dentryInodeNum)
  let dir := fs.itable directoryInodeNum
  let dir := { dir with
    links := 2
    size := (dir.size + 1) % 2 ^ 64
    iMtime := now
    numEntries := (dir.numEntries + 1) % 2 ^ 32 }
  let sb := { fs.sb with sbUsedDirsCount := fs.sb.sbUsedDirsCount + 1 }
  return { fs.setInode directoryInodeNum dir with sb := sb, data := data }

def addDentry (fs : FsCtx) (directoryInodeNum dentryInodeNum : Nat) (name : List Byte)
    (now : Timespec) : Checked (FsCtx × Int) := do
  let (fs, made) ← if (fs.itable directoryInodeNum).lastUsedExtent = -1
    then makeDentryBlock fs directoryInodeNum now else pure (fs, 0)
  if made < 0 then return (fs, -1)
  else
    let free ← fs.findIno (fs.itable directoryInodeNum) (-1)
    let (fs, made) ← if free = none
      then makeDentryBlock fs directoryInodeNum now else pure (fs, 0)
    if made < 0 then return (fs, -1)
    else match ← fs.findIno (fs.itable directoryInodeNum) (-1) with
    | some addr => return (← writeDentry fs directoryInodeNum dentryInodeNum name addr now, 0)
    | none => return (fs, -1)

/-- The `do .. while` loop. The `blocks_created` of its condition is the outer variable,
    which stays 0. -/
def createRepeatedly (make : FsCtx → Checked (FsCtx × Int)) (numBlocks : Int) :
    (fuel : Nat) → FsCtx → (totalCreated : Int) → Checked (FsCtx × Int)
  | 0, _, _ => .error .nonterminating
  | fuel + 1, fs, totalCreated => do
    let (fs, blocksCreated) ← make fs
    if blocksCreated ≠ -1 then
      if numBlocks - 0 > 0 then
        createRepeatedly make numBlocks fuel fs (totalCreated + blocksCreated)
      else return (fs, totalCreated + blocksCreated)
    else return (fs, -1)

/-- `fuel` bounds the depth of the recursion and the iterations of its loops. -/
def makeDataBlocks (inodeIndex : Nat) (now : Timespec) :
    (fuel : Nat) → FsCtx → (numBlocks : Int) → Checked (FsCtx × Int)
  | 0, _, _ => .error .nonterminating
  | fuel + 1, fs, numBlocks => do
    let available ← getAvailableBit fs.sb fs.blockBits .data numBlocks
    if available > -1 then
      let (fs, block) ← allocateDataBlks fs inodeIndex available.toNat numBlocks.toNat .data now
      let (sb, bits) ← setBits fs.sb fs.blockBits block .data numBlocks 1
      return ({ fs with sb := sb, blockBits := bits }, numBlocks)
    else
      createRepeatedly (fun fs => makeDataBlocks inodeIndex now fuel fs (numBlocks - 1)) numBlocks
        fuel fs 0

/-- One call of `zero_out_blocks`, with `length` iterations left from block `j` on. It
    returns the final `*blocks_left_to_zero`. -/
def zeroOutBlocks (curInode extentIndex : Nat) (leftoverBytes : Int) :
    (length : Nat) → FsCtx → (j : Nat) → (blocksLeft : Int) → Checked (FsCtx × Int)
  | 0, fs, _, blocksLeft => .ok (fs, blocksLeft)
  | length + 1, fs, j, blocksLeft => do
    let dbAddr ← FsCtx.blockOffset j
    let resize (fs : FsCtx) (bytes : Int) : FsCtx :=
      let inode := fs.itable curInode
      let extent := inode.iExtent extentIndex
      fs.setInode curInode (inode.setExtent extentIndex { extent with size := extent.size + bytes })
    if blocksLeft = 1 ∧ leftoverBytes ≠ 0 then
      let fs ← fs.clearBytes dbAddr leftoverBytes
      return (resize fs leftoverBytes, blocksLeft - 1)
    else
      let fs ← fs.clearBytes dbAddr 4096
      zeroOutBlocks curInode extentIndex leftoverBytes length (resize fs (-4096)) (j + 1)
        (blocksLeft - 1)

/-- The backward search for the extent and the block where the last `blocksNeeded` blocks
    start, over the slots below `slots`. -/
def firstToZero (inode : A1fsInode) : (slots : Nat) → (blocksNeeded : Int) → Checked (Nat × Nat)
  | 0, _ => .error .uninitialized
  | i + 1, blocksNeeded => do
    let extent ← inode.extentAt i
    if extent.count ≥ blocksNeeded then
      return (i, (extent.start + extent.count - blocksNeeded).toNat)
    else firstToZero inode i (blocksNeeded - extent.count)

/-- The loop over the extents to zero; only the first starts inside its extent. -/
def zeroExtents (curInode : Nat) (leftoverBytes : Int) (firstExtent firstDb : Nat) :
    List Nat → FsCtx → (blocksLeft : Int) → Checked FsCtx
  | [], fs, _ => .ok fs
  | i :: rest, fs, blocksLeft =>
    if blocksLeft = 0 then .ok fs
    else do
      let extent ← (fs.itable curInode).extentAt i
      let start := if i = firstExtent then firstDb else extent.start
      let (fs, blocksLeft) ←
        zeroOutBlocks curInode i leftoverBytes extent.count fs start blocksLeft
      let inode := fs.itable curInode
      let extent := inode.iExtent i
      let inode := inode.setExtent i { extent with size := extent.size + leftoverBytes }
      zeroExtents curInode leftoverBytes firstExtent firstDb rest (fs.setInode curInode inode)
        blocksLeft

def touch (fs : FsCtx) (i : Nat) (now : Timespec) : FsCtx :=
  fs.setInode i { fs.itable i with iMtime := now }

/-- The number of blocks that `truncate_helper` makes and its leftover bytes. -/
def blockRequest (size : Int) : Checked (Int × Int) := do
  let numBlocks := toInt (size.tdiv 4096)
  let leftoverBytes := toInt (size - (← intArith (numBlocks * 4096)))
  return (if leftoverBytes ≠ 0 then numBlocks + 1 else numBlocks, leftoverBytes)

def truncateHelper (fuel : Nat) (fs : FsCtx) (curInode : Nat) (size : Int) (now : Timespec) :
    Checked (FsCtx × Int) := do
  let (blocks, leftoverBytes) ← blockRequest size
  let (fs, made) ← makeDataBlocks curInode now fuel fs blocks
  if blocks ≠ made then return (fs, -1)
  else
    let fs := touch fs curInode now
    let inode := fs.itable curInode
    let slots := (inode.lastUsedExtent + 1).toNat
    let (firstExtent, firstDb) ← firstToZero inode slots blocks
    let fs ← zeroExtents curInode leftoverBytes firstExtent firstDb
      (List.range' firstExtent (slots - firstExtent)) fs blocks
    return (touch fs curInode now, 0)

/-- The search for the extent that holds an offset. `remainingoffset -= ..` moves the
    pointer, so after an extent whose size is not 0 the loop reads outside its variable. -/
def findOffsetExtent (inode : A1fsInode) (remainingOffset : Int) :
    (slotsLeft curExtentIndex : Nat) → Checked (Nat × Int)
  | 0, _ => .error .badSlot
  | slotsLeft + 1, curExtentIndex => do
    if remainingOffset = 0 then return (curExtentIndex, 0)
    else if remainingOffset > 0 then
      let extent ← inode.extentAt curExtentIndex
      if extent.size < remainingOffset then
        if extent.size = 0 then
          findOffsetExtent inode remainingOffset slotsLeft (curExtentIndex + 1)
        else .error .outOfBounds
      else return (curExtentIndex, 0)
    else return (curExtentIndex, -1)

end ExtentFs
