import ExtentFs.Effects.Format
import ExtentFs.Model.Image

namespace ExtentFs

open Base Base.Bytes

/-- The fields of a superblock have the range of their C types. -/
structure A1fsSuperblock.Fits (sb : A1fsSuperblock) : Prop where
  size : sb.size < 2 ^ 64
  firstDataBlock : sb.sbFirstDataBlock < 256
  firstEmptyDb : sb.sbFirstEmptyDb < 256
  totalDataBlocks : sb.sbTotalDataBlocks < 256
  blockBitmap : sb.sbBlockBitmap < 256
  inodeBitmap : sb.sbInodeBitmap < 256
  inodeTable : sb.sbInodeTable < 256
  freeBlocks : -2 ^ 63 ≤ sb.sbFreeBlocksCount ∧ sb.sbFreeBlocksCount < 2 ^ 63
  freeInodes : -2 ^ 63 ≤ sb.sbFreeInodesCount ∧ sb.sbFreeInodesCount < 2 ^ 63
  inodes : -2 ^ 63 ≤ sb.sbInodesCount ∧ sb.sbInodesCount < 2 ^ 63
  usedDirs : -2 ^ 63 ≤ sb.sbUsedDirsCount ∧ sb.sbUsedDirsCount < 2 ^ 63

structure A1fsExtent.Fits (extent : A1fsExtent) : Prop where
  start : extent.start < 2 ^ 32
  count : extent.count < 2 ^ 31
  size : -2 ^ 31 ≤ extent.size ∧ extent.size < 2 ^ 31

structure A1fsInode.Fits (inode : A1fsInode) : Prop where
  links : inode.links < 2 ^ 32
  size : inode.size < 2 ^ 64
  lastUsedExtent : -2 ^ 31 ≤ inode.lastUsedExtent ∧ inode.lastUsedExtent < 2 ^ 31
  lastUsedIndirect : -2 ^ 31 ≤ inode.lastUsedIndirect ∧ inode.lastUsedIndirect < 2 ^ 31
  numEntries : inode.numEntries < 2 ^ 32
  extents : ∀ k < 12, (inode.iExtent k).Fits
  slots : ∀ k, 12 ≤ k → inode.iExtent k = ⟨0, 0, 0⟩

/-- The parts of a file system lie one behind the other, and nothing is stored outside of them. -/
structure FsCtx.Laid (fs : FsCtx) : Prop where
  superblock : fs.sb.Fits
  first : 0 < fs.sb.sbInodeBitmap
  inodeBits : 4096 * fs.sb.sbInodeBitmap + fs.inodeBits.length = 4096 * fs.sb.sbBlockBitmap
  blockBits : 4096 * fs.sb.sbBlockBitmap + fs.blockBits.length = 4096 * fs.sb.sbInodeTable
  table : 4096 * fs.sb.sbInodeTable + 256 * fs.sb.sbInodesCount.toNat ≤ 4096 * fs.sb.sbFirstDataBlock
  data : 4096 * fs.sb.sbFirstDataBlock ≤ fs.size
  inodeTail : ∀ k, fs.inodeBits.length ≤ k → fs.inodeBits.byte k = 0#8
  blockTail : ∀ k, fs.blockBits.length ≤ k → fs.blockBits.byte k = 0#8
  dataTail : ∀ a, fs.dataSize ≤ a → fs.data a = 0#8
  inodes : ∀ i : Nat, (i : Int) < fs.sb.sbInodesCount → (fs.itable i).Fits
  others : ∀ i : Nat, fs.sb.sbInodesCount ≤ i → fs.itable i = zeroInode

section Numbers

theorem toInt_ofInt64 {x : Int} (fits : -2 ^ 63 ≤ x ∧ x < 2 ^ 63) : (BitVec.ofInt 64 x).toInt = x := by
  rw [BitVec.toInt_ofInt, Int.bmod_def]
  split <;> omega

theorem toInt_ofInt32 {x : Int} (fits : -2 ^ 31 ≤ x ∧ x < 2 ^ 31) : (BitVec.ofInt 32 x).toInt = x := by
  rw [BitVec.toInt_ofInt, Int.bmod_def]
  split <;> omega

theorem toInt_ofNat32 {n : Nat} (fits : n < 2 ^ 31) : (BitVec.ofNat 32 n).toInt = n := by
  rw [BitVec.toInt_eq_toNat_bmod, BitVec.toNat_ofNat, Int.bmod_def]
  split <;> omega

theorem toNat_ofNat {w n : Nat} (fits : n < 2 ^ w) : (BitVec.ofNat w n).toNat = n := by
  rw [BitVec.toNat_ofNat, Nat.mod_eq_of_lt fits]

end Numbers

section Records

variable {image : Bytes} {addr x : Nat}

theorem A1fsSuperblock.read_write {sb : A1fsSuperblock} (fits : sb.Fits) :
    A1fsSuperblock.read (sb.write image) = sb := by
  simp only [A1fsSuperblock.read, A1fsSuperblock.write, offFreeBlocksCount, offFreeInodesCount,
    offInodesCount, offInodeBitmap, offBlockBitmap, offInodeTable, offFirstDataBlock, offMagic,
    offSize, offFirstEmptyDb, offTotalDataBlocks, offUsedDirsCount]
  simp (disch := omega) only [set8_of_ne, set64_outside, set8_self, word64_set8, word64_set64,
    word64_set64_of_disjoint, toInt_ofInt64 fits.freeBlocks, toInt_ofInt64 fits.freeInodes,
    toInt_ofInt64 fits.inodes, toInt_ofInt64 fits.usedDirs, toNat_ofNat fits.size,
    toNat_ofNat (w := 8) fits.firstDataBlock, toNat_ofNat (w := 8) fits.firstEmptyDb,
    toNat_ofNat (w := 8) fits.totalDataBlocks, toNat_ofNat (w := 8) fits.blockBitmap,
    toNat_ofNat (w := 8) fits.inodeBitmap, toNat_ofNat (w := 8) fits.inodeTable]

theorem A1fsExtent.read_write {extent : A1fsExtent} (fits : extent.Fits) :
    A1fsExtent.read (extent.write image addr) addr = extent := by
  simp only [A1fsExtent.read, A1fsExtent.write]
  simp (disch := omega) only [word32_set32, word32_set32_of_disjoint, toNat_ofNat fits.start,
    toInt_ofNat32 fits.count, toInt_ofInt32 fits.size, Int.toNat_natCast]

theorem A1fsExtent.write_outside {extent : A1fsExtent} (outside : x < addr ∨ addr + 12 ≤ x) :
    extent.write image addr x = image x := by
  simp only [A1fsExtent.write]
  simp (disch := omega) only [set32_outside]

theorem A1fsExtent.read_congr {image' : Bytes} (same : ∀ i < 12, image (addr + i) = image' (addr + i)) :
    A1fsExtent.read image addr = A1fsExtent.read image' addr := by
  have word (i : Nat) (low : i + 4 ≤ 12) : image.word32 (addr + i) = image'.word32 (addr + i) := by
    refine word32_congr fun j bound => ?_
    rw [Nat.add_assoc]
    exact same _ (by omega)
  have first := word 0 (by omega)
  simp only [Nat.add_zero] at first
  simp only [A1fsExtent.read, first, word 4 (by omega), word 8 (by omega)]

namespace A1fsInode

variable {inode : A1fsInode}

theorem writeExtents_outside {n : Nat} (outside : x < addr + 32 ∨ addr + 32 + 12 * n ≤ x) :
    inode.writeExtents image addr n x = image x := by
  induction n with
  | zero => rfl
  | succ n ih =>
    rw [writeExtents, List.range_succ, List.foldl_append]
    change (inode.iExtent n).write (inode.writeExtents image addr n) (addr + 32 + 12 * n) x = _
    rw [A1fsExtent.write_outside (by omega), ih (by omega)]

theorem read_writeExtents {n k : Nat} (below : k < n) (fits : (inode.iExtent k).Fits) :
    A1fsExtent.read (inode.writeExtents image addr n) (addr + 32 + 12 * k) = inode.iExtent k := by
  induction n with
  | zero => omega
  | succ n ih =>
    rw [writeExtents, List.range_succ, List.foldl_append]
    change A1fsExtent.read ((inode.iExtent n).write (inode.writeExtents image addr n)
      (addr + 32 + 12 * n)) _ = _
    by_cases last : k = n
    · subst last
      exact A1fsExtent.read_write fits
    · rw [A1fsExtent.read_congr fun i bound => A1fsExtent.write_outside (by omega)]
      exact ih (by omega)

theorem write_outside (outside : x < addr ∨ addr + 188 ≤ x) : inode.write image addr x = image x := by
  rw [write, writeExtents_outside (by omega), writeHeader_outside outside]

theorem read_write (fits : inode.Fits) : A1fsInode.read (inode.write image addr) addr = inode := by
  have kept (i : Nat) (outside : i < 32 ∨ 176 ≤ i) : inode.write image addr (addr + i) =
      inode.writeHeader image addr (addr + i) := writeExtents_outside (by omega)
  have word32 (i : Nat) (outside : i + 4 ≤ 32 ∨ 176 ≤ i) : (inode.write image addr).word32 (addr + i) =
      (inode.writeHeader image addr).word32 (addr + i) := by
    refine word32_congr fun j bound => ?_
    rw [Nat.add_assoc]
    exact kept _ (by omega)
  have word64 (i : Nat) (outside : i + 8 ≤ 32) : (inode.write image addr).word64 (addr + i) =
      (inode.writeHeader image addr).word64 (addr + i) := by
    refine word64_congr fun j bound => ?_
    rw [Nat.add_assoc]
    exact kept _ (by omega)
  have mode := word32 0 (by omega)
  simp only [Nat.add_zero] at mode
  have slots : (fun k => if k < 12 then A1fsExtent.read (inode.write image addr) (addr + 32 + 12 * k)
      else ⟨0, 0, 0⟩) = inode.iExtent := by
    funext k
    split
    · rename_i low
      exact read_writeExtents low (fits.extents k low)
    · exact (fits.slots k (by omega)).symm
  simp only [A1fsInode.read, slots, mode, word32 4 (by omega), word64 8 (by omega), word64 16 (by omega),
    word64 24 (by omega), word32 176 (by omega), word32 180 (by omega), word32 184 (by omega), writeHeader]
  simp (disch := omega) only [word32_set32, word64_set64, word32_set32_of_disjoint, word32_set64,
    word64_set32, word64_set64_of_disjoint, toNat_ofNat fits.links, toNat_ofNat fits.size,
    toNat_ofNat fits.numEntries, toInt_ofInt32 fits.lastUsedExtent, toInt_ofInt32 fits.lastUsedIndirect]

end A1fsInode

section Table

variable {itable : Nat → A1fsInode} {n : Nat}

/-- The bytes behind the fields of an inode are not written. -/
theorem writeInodes_gap (outside : ∀ i < n, x < addr + 256 * i ∨ addr + 256 * i + 188 ≤ x) :
    FsCtx.writeInodes image addr itable n x = image x := by
  induction n with
  | zero => rfl
  | succ n ih =>
    rw [FsCtx.writeInodes, List.range_succ, List.foldl_append]
    change (itable n).write (FsCtx.writeInodes image addr itable n) (addr + 256 * n) x = _
    rw [A1fsInode.write_outside (outside n (by omega)), ih fun i below => outside i (by omega)]

theorem writeInodes_outside (outside : x < addr ∨ addr + 256 * n ≤ x) :
    FsCtx.writeInodes image addr itable n x = image x :=
  writeInodes_gap fun i below => by omega

theorem read_writeInodes {i : Nat} (below : i < n) (fits : (itable i).Fits) :
    A1fsInode.read (FsCtx.writeInodes image addr itable n) (addr + 256 * i) = itable i := by
  induction n with
  | zero => omega
  | succ n ih =>
    rw [FsCtx.writeInodes, List.range_succ, List.foldl_append]
    change A1fsInode.read ((itable n).write (FsCtx.writeInodes image addr itable n) (addr + 256 * n)) _ = _
    by_cases last : i = n
    · subst last
      exact A1fsInode.read_write fits
    · rw [inode_congr fun j bound => A1fsInode.write_outside (by omega)]
      exact ih (by omega)

end Table

end Records

section Mount

variable {fs : FsCtx} {rest : Bytes} {x : Nat}

/-- The superblock's bytes are behind none of the other parts. -/
theorem FsCtx.Laid.image_superblock (laid : fs.Laid) (low : x < 64) :
    fs.image rest x = fs.sb.write rest x := by
  obtain ⟨-, first, inodeBits, blockBits, table, -, -, -, -, -, -⟩ := laid
  rw [FsCtx.image, paste_outside (by omega), writeInodes_outside (by omega), paste_outside (by omega),
    paste_outside (by omega)]

theorem FsCtx.Laid.read_superblock (laid : fs.Laid) : A1fsSuperblock.read (fs.image rest) = fs.sb := by
  rw [superblock_congr fun a low => laid.image_superblock low]
  exact A1fsSuperblock.read_write laid.superblock

theorem FsCtx.Laid.image_inodeBits (laid : fs.Laid) {k : Nat} (below : k < fs.inodeBits.length) :
    fs.image rest (4096 * fs.sb.sbInodeBitmap + k) = fs.inodeBits.byte k := by
  obtain ⟨-, first, inodeBits, blockBits, table, -, -, -, -, -, -⟩ := laid
  rw [FsCtx.image, paste_outside (by omega), writeInodes_outside (by omega), paste_outside (by omega),
    paste_inside below]

theorem FsCtx.Laid.image_blockBits (laid : fs.Laid) {k : Nat} (below : k < fs.blockBits.length) :
    fs.image rest (4096 * fs.sb.sbBlockBitmap + k) = fs.blockBits.byte k := by
  obtain ⟨-, first, inodeBits, blockBits, table, -, -, -, -, -, -⟩ := laid
  rw [FsCtx.image, paste_outside (by omega), writeInodes_outside (by omega), paste_inside below]

theorem FsCtx.Laid.read_inode (laid : fs.Laid) {i : Nat} (below : (i : Int) < fs.sb.sbInodesCount) :
    A1fsInode.read (fs.image rest) (4096 * fs.sb.sbInodeTable + 256 * i) = fs.itable i := by
  have fits := laid.inodes i below
  obtain ⟨-, first, inodeBits, blockBits, table, -, -, -, -, -, -⟩ := laid
  rw [FsCtx.image, inode_congr fun j bound => paste_outside (by omega)]
  exact read_writeInodes (by omega) fits

theorem image_data {k : Nat} (below : k < fs.dataSize) :
    fs.image rest (4096 * fs.sb.sbFirstDataBlock + k) = fs.data k := by
  rw [FsCtx.image, paste_inside below]

/-- What is written out is read back. -/
theorem FsCtx.Laid.mount (laid : fs.Laid) (rest : Bytes) :
    fsCtxInit (fs.image rest) fs.size = (fs, fs.sb.magic == a1fsMagic) := by
  have superblock : A1fsSuperblock.read (fs.image rest) = fs.sb := laid.read_superblock
  have inodeBits := laid.inodeBits
  have blockBits := laid.blockBits
  rw [fsCtxInit, superblock]
  refine Prod.ext ?_ rfl
  obtain ⟨size, sb, inodeBitmap, blockBitmap, itable, data⟩ := fs
  obtain ⟨inodeLength, inodeByte⟩ := inodeBitmap
  obtain ⟨blockLength, blockByte⟩ := blockBitmap
  dsimp only at inodeBits blockBits ⊢
  have inodeGap : 4096 * sb.sbBlockBitmap - 4096 * sb.sbInodeBitmap = inodeLength := by omega
  have blockGap : 4096 * sb.sbInodeTable - 4096 * sb.sbBlockBitmap = blockLength := by omega
  rw [inodeGap, blockGap, FsCtx.mk.injEq, Bitmap.mk.injEq, Bitmap.mk.injEq]
  refine ⟨rfl, rfl, ⟨rfl, funext fun k => ?_⟩, ⟨rfl, funext fun k => ?_⟩, funext fun i => ?_, funext fun k => ?_⟩
  · split
    · rename_i below
      exact laid.image_inodeBits below
    · exact (laid.inodeTail k (by dsimp only; omega)).symm
  · split
    · rename_i below
      exact laid.image_blockBits below
    · exact (laid.blockTail k (by dsimp only; omega)).symm
  · split
    · rename_i below
      exact laid.read_inode below
    · exact (laid.others i (by dsimp only; omega)).symm
  · split
    · rename_i below
      exact image_data below
    · exact (laid.dataTail k (by simp only [FsCtx.dataSize]; omega)).symm

end Mount

section Rewrite

variable {image : Bytes} {addr : Nat}

/-- The extents of an inode have no negative counts, which its record cannot hold. -/
def Canonical (image : Bytes) (addr : Nat) : Prop :=
  ∀ k < 12, (image.word32 (addr + 32 + 12 * k + 4)).toNat < 2 ^ 31

/-! A record that is written back where it was read from changes nothing. -/

theorem A1fsSuperblock.write_read : (A1fsSuperblock.read image).write image = image := by
  simp only [A1fsSuperblock.write, A1fsSuperblock.read, BitVec.ofNat_toNat, BitVec.setWidth_eq,
    BitVec.ofInt_toInt, set64_word64, set8_byte]

theorem A1fsExtent.write_read (few : (image.word32 (addr + 4)).toNat < 2 ^ 31) :
    (A1fsExtent.read image addr).write image addr = image := by
  have count : BitVec.ofNat 32 (image.word32 (addr + 4)).toInt.toNat = image.word32 (addr + 4) := by
    rw [BitVec.toInt_eq_toNat_of_lt (by omega), Int.toNat_natCast, BitVec.ofNat_toNat, BitVec.setWidth_eq]
  simp only [A1fsExtent.write, A1fsExtent.read, count, BitVec.ofNat_toNat, BitVec.setWidth_eq,
    BitVec.ofInt_toInt, set32_word32]

theorem A1fsInode.write_read (canonical : Canonical image addr) :
    (A1fsInode.read image addr).write image addr = image := by
  have header : (A1fsInode.read image addr).writeHeader image addr = image := by
    simp only [A1fsInode.writeHeader, A1fsInode.read, BitVec.ofNat_toNat, BitVec.setWidth_eq,
      BitVec.ofInt_toInt, set32_word32, set64_word64]
  have slots (n : Nat) (few : n ≤ 12) : (A1fsInode.read image addr).writeExtents image addr n = image := by
    induction n with
    | zero => rfl
    | succ n ih =>
      have slot : (A1fsInode.read image addr).iExtent n = A1fsExtent.read image (addr + 32 + 12 * n) :=
        if_pos (by omega)
      rw [writeExtents, List.range_succ, List.foldl_append]
      change ((A1fsInode.read image addr).iExtent n).write
        ((A1fsInode.read image addr).writeExtents image addr n) _ = _
      rw [ih (by omega), slot, A1fsExtent.write_read (canonical n (by omega))]
  rw [write, header, slots 12 (by omega)]

theorem writeInodes_read {itable : Nat → A1fsInode} {n : Nat}
    (same : ∀ i < n, itable i = A1fsInode.read image (addr + 256 * i))
    (canonical : ∀ i < n, Canonical image (addr + 256 * i)) :
    FsCtx.writeInodes image addr itable n = image := by
  induction n with
  | zero => rfl
  | succ n ih =>
    rw [FsCtx.writeInodes, List.range_succ, List.foldl_append]
    change (itable n).write (FsCtx.writeInodes image addr itable n) (addr + 256 * n) = _
    rw [ih (fun i below => same i (by omega)) fun i below => canonical i (by omega), same n (by omega),
      A1fsInode.write_read (canonical n (by omega))]

end Rewrite

section Again

variable {image image' : Bytes} {addr : Nat} {inode : A1fsInode} {fs : FsCtx} {rest : Bytes}

/-! What is written has no such counts. -/

theorem Canonical.congr (canonical : Canonical image addr)
    (same : ∀ i < 188, image' (addr + i) = image (addr + i)) : Canonical image' addr := by
  intro k low
  have word : image'.word32 (addr + 32 + 12 * k + 4) = image.word32 (addr + 32 + 12 * k + 4) := by
    refine word32_congr fun j bound => ?_
    rw [Nat.add_assoc, Nat.add_assoc, Nat.add_assoc]
    exact same _ (by omega)
  rw [word]
  exact canonical k low

theorem word32_writeExtents {n k : Nat} (below : k < n) (few : (inode.iExtent k).count < 2 ^ 31) :
    ((inode.writeExtents image addr n).word32 (addr + 32 + 12 * k + 4)).toNat = (inode.iExtent k).count := by
  induction n with
  | zero => omega
  | succ n ih =>
    rw [A1fsInode.writeExtents, List.range_succ, List.foldl_append]
    change (((inode.iExtent n).write (inode.writeExtents image addr n) (addr + 32 + 12 * n)).word32 _).toNat = _
    by_cases last : k = n
    · subst last
      simp only [A1fsExtent.write]
      simp (disch := omega) only [word32_set32, word32_set32_of_disjoint]
      exact toNat_ofNat (by omega)
    · rw [word32_congr fun i bound => A1fsExtent.write_outside (by omega)]
      exact ih (by omega)

theorem A1fsInode.Fits.canonical (fits : inode.Fits) : Canonical (inode.write image addr) addr := by
  intro k low
  have few := (fits.extents k low).count
  rw [A1fsInode.write, word32_writeExtents low few]
  exact few

theorem writeInodes_canonical {itable : Nat → A1fsInode} {n i : Nat} (below : i < n) (fits : (itable i).Fits) :
    Canonical (FsCtx.writeInodes image addr itable n) (addr + 256 * i) := by
  induction n with
  | zero => omega
  | succ n ih =>
    rw [FsCtx.writeInodes, List.range_succ, List.foldl_append]
    change Canonical ((itable n).write (FsCtx.writeInodes image addr itable n) (addr + 256 * n)) _
    by_cases last : i = n
    · subst last
      exact fits.canonical
    · exact (ih (by omega)).congr fun j bound => A1fsInode.write_outside (by omega)

theorem FsCtx.Laid.canonical (laid : fs.Laid) {i : Nat} (below : i < fs.sb.sbInodesCount.toNat) :
    Canonical (fs.image rest) (4096 * fs.sb.sbInodeTable + 256 * i) := by
  have fits := laid.inodes i (by omega)
  have table := laid.table
  rw [FsCtx.image]
  exact (writeInodes_canonical below fits).congr fun j bound => paste_outside (by omega)

/-- What has been written out is not changed when it is written out again. -/
theorem FsCtx.Laid.image_again (laid : fs.Laid) : fs.image (fs.image rest) = fs.image rest := by
  have superblock : fs.sb.write (fs.image rest) = fs.image rest := by
    have read : A1fsSuperblock.read (fs.image rest) = fs.sb := laid.read_superblock
    have again : (A1fsSuperblock.read (fs.image rest)).write (fs.image rest) = fs.image rest :=
      A1fsSuperblock.write_read
    rwa [read] at again
  have inodeBits : (fs.image rest).paste (4096 * fs.sb.sbInodeBitmap) fs.inodeBits.length fs.inodeBits.byte =
      fs.image rest := paste_self fun i inside => (laid.image_inodeBits inside).symm
  have blockBits : (fs.image rest).paste (4096 * fs.sb.sbBlockBitmap) fs.blockBits.length fs.blockBits.byte =
      fs.image rest := paste_self fun i inside => (laid.image_blockBits inside).symm
  have inodes : FsCtx.writeInodes (fs.image rest) (4096 * fs.sb.sbInodeTable) fs.itable
      fs.sb.sbInodesCount.toNat = fs.image rest :=
    writeInodes_read (fun i below => (laid.read_inode (by omega)).symm) fun i below => laid.canonical below
  have data : (fs.image rest).paste (4096 * fs.sb.sbFirstDataBlock) fs.dataSize fs.data = fs.image rest :=
    paste_self fun i inside => (image_data inside).symm
  generalize fs.image rest = written at *
  simp only [FsCtx.image, superblock, inodeBits, blockBits, inodes, data]

end Again

end ExtentFs
