import ExtentFs.Effects.Layout
import ExtentFs.Effects.Names

namespace ExtentFs

open Base Base.Bytes

def A1fsInode.withoutSlots (inode : A1fsInode) : A1fsInode := { inode with iExtent := fun _ => ⟨0, 0, 0⟩ }

theorem A1fsInode.withoutSlots_mode (inode : A1fsInode) : inode.withoutSlots.mode = inode.mode := rfl

theorem A1fsInode.withoutSlots_lastUsedExtent (inode : A1fsInode) :
    inode.withoutSlots.lastUsedExtent = inode.lastUsedExtent := rfl

/-- What `mkfs` made is an empty file system with the free counts of the one it makes of a
    zeroed image. -/
structure EmptyAs (zeroed out : Bytes) (size : Nat) (now : Timespec) : Prop where
  root : ((fsCtxInit out size).1.itable 0).withoutSlots = rootInode now
  inodes : ∀ i : Nat, (i : Int) < (A1fsSuperblock.read out).sbInodesCount →
    (bitmapFrom out size (4096 * (A1fsSuperblock.read out).sbInodeBitmap)).test i = decide (i = 0)
  data : ∀ b : Nat, (b : Int) < (A1fsSuperblock.read out).sbFreeBlocksCount →
    (bitmapFrom out size (4096 * (A1fsSuperblock.read out).sbBlockBitmap)).test b = false
  freeBlocks : (A1fsSuperblock.read out).sbFreeBlocksCount =
    (A1fsSuperblock.read zeroed).sbFreeBlocksCount
  freeInodes : (A1fsSuperblock.read out).sbFreeInodesCount =
    (A1fsSuperblock.read zeroed).sbFreeInodesCount
  firstEmpty : (A1fsSuperblock.read out).sbFirstEmptyDb = (A1fsSuperblock.read zeroed).sbFirstEmptyDb
  paths : ∀ path, getInodeNum (fsCtxInit out size).1 path 0 =
    .ok (if strtok path.bytes = [] then 0 else -1)

def bitmapBlocks (blocks nInodes : Nat) : Int :=
  (sizeBitmap (blocksLeft blocks nInodes) ((blocksLeft blocks nInodes).toNat + 1) 1).toOption.getD 0

def dataBitmapAt (nInodes : Nat) : Nat := (uint8 (1 + blocksFor nInodes 32768)).toNat

def inodeTableAt (blocks nInodes : Nat) : Nat :=
  (uint8 (1 + blocksFor nInodes 32768 + bitmapBlocks blocks nInodes)).toNat

def blocksForData (blocks nInodes : Nat) : Int :=
  blocksLeft blocks nInodes - bitmapBlocks blocks nInodes

/-- The two block numbers, which are kept in one byte, have not wrapped so far that the root inode
    or the superblock is in a bitmap. -/
structure Apart (blocks nInodes : Nat) : Prop where
  table : 1 ≤ inodeTableAt blocks nInodes
  inodes : nInodes ≤ 32768 * (inodeTableAt blocks nInodes - 1) ∨ nInodes = 1
  bitmap : 2 ≤ dataBitmapAt nInodes
  data : inodeTableAt blocks nInodes < dataBitmapAt nInodes ∨
    blocksForData blocks nInodes ≤ 32768 * (inodeTableAt blocks nInodes - dataBitmapAt nInodes)

/-- The bytes that `mkfs` reads, or leaves for later calls to read, are as in a zeroed image. -/
structure Clean (image : Bytes) (blocks nInodes : Nat) : Prop where
  unformatted : image.word64 offMagic ≠ a1fsMagic
  enough : -1 ≤ (image.word64 offFreeBlocksCount).toInt
  firstEmpty : image offFirstEmptyDb = 0#8
  inodes : ∀ i < nInodes, (bitmapFrom image (4096 * blocks) 4096).test i = false
  data : ∀ b : Nat, (b : Int) < blocksForData blocks nInodes →
    (bitmapFrom image (4096 * blocks) (4096 * dataBitmapAt nInodes)).test b = false

theorem Sized.bitmapBlocks {blocks nInodes : Nat} {k : Int} (sized : Sized blocks nInodes k) :
    bitmapBlocks blocks nInodes = k :=
  congrArg (fun sizing => (Except.toOption sizing).getD 0) sized.sizing

section Bytes

variable {image : Bytes} {blocks nInodes r a : Nat} {now : Timespec} {k : Int}

def rootAt (nInodes : Nat) (k : Int) (r : Nat) : Nat :=
  4096 * (uint8 (1 + blocksFor nInodes 32768 + k)).toNat + 256 * r

theorem formattedOver_outside (beyond : 64 ≤ a)
    (outside : a < rootAt nInodes k r ∨ rootAt nInodes k r + 188 ≤ a) :
    formattedOver image blocks nInodes now k r a =
      if a = 4096 + r / 8 then image a ^^^ Bitmap.mask r else image a := by
  rw [rootAt] at outside
  rw [formattedOver, fillSuperblock_beyond beyond, writeRoot_outside outside]
  split
  · rename_i marked
    rw [markInode, set64_outside _ (by simp only [offFreeInodesCount]; omega), if_pos marked,
      layOut_beyond beyond]
  · rename_i other
    rw [markInode_outside beyond other, layOut_beyond beyond]

theorem formattedOver_mode (beyond : 64 ≤ rootAt nInodes k r) :
    formattedOver image blocks nInodes now k r (rootAt nInodes k r) = 0xFF#8 := by
  rw [formattedOver, fillSuperblock_beyond beyond]
  change writeRoot _ (rootAt nInodes k r) now (rootAt nInodes k r) = _
  generalize rootAt nInodes k r = addr
  have mode (m : Bytes) (v : BitVec 32) : m.set32 addr v addr = v.extractLsb' 0 8 :=
    store_inside (i := 0) (by simp [bytes32])
  simp only [writeRoot, A1fsInode.writeHeader]
  simp (disch := omega) only [set32_outside, set64_outside, mode]
  simp only [A1fsInode.read, createInode, word32_set32]
  simp (disch := omega) only [word32_set32_of_disjoint, word32_set64, word32_set32]
  decide

variable (image blocks nInodes now k r) in
theorem formattedOver_magic : (formattedOver image blocks nInodes now k r).word64 0 = a1fsMagic := by
  rw [formattedOver]
  simp only [fillSuperblock, offMagic, offSize, offTotalDataBlocks, offFreeBlocksCount, offUsedDirsCount]
  simp (disch := omega) only [word64_set64_of_disjoint, word64_set8, word64_set64]

theorem test_ones {m : Bitmap} {i : Nat} (ones : m.byte (i / 8) = 0xFF#8) : m.test i = true := by
  have below : i % 8 < 8 := Nat.mod_lt _ (by omega)
  rw [Bitmap.test_eq_getLsbD, ones]
  generalize i % 8 = k at *
  have cases : k = 0 ∨ k = 1 ∨ k = 2 ∨ k = 3 ∨ k = 4 ∨ k = 5 ∨ k = 6 ∨ k = 7 := by omega
  rcases cases with rfl | rfl | rfl | rfl | rfl | rfl | rfl | rfl <;> rfl

theorem formattedOver_test_mode {size i : Nat} (beyond : 64 ≤ rootAt nInodes k r)
    (place : a + i / 8 = rootAt nInodes k r) :
    (bitmapFrom (formattedOver image blocks nInodes now k r) size a).test i = true := by
  apply test_ones
  change formattedOver image blocks nInodes now k r (a + i / 8) = _
  rw [place]
  exact formattedOver_mode beyond

theorem formattedOver_test_other {size i : Nat} (beyond : 64 ≤ a)
    (outside : a + i / 8 < rootAt nInodes k r ∨ rootAt nInodes k r + 188 ≤ a + i / 8)
    (unmarked : a + i / 8 ≠ 4096 + r / 8) :
    (bitmapFrom (formattedOver image blocks nInodes now k r) size a).test i =
      (bitmapFrom image size a).test i := by
  apply bitmapFrom_congr
  rw [formattedOver_outside (by omega) outside, if_neg unmarked]

theorem formattedOver_test_inode {size i : Nat}
    (outside : 4096 + i / 8 < rootAt nInodes k r ∨ rootAt nInodes k r + 188 ≤ 4096 + i / 8) :
    (bitmapFrom (formattedOver image blocks nInodes now k r) size 4096).test i =
      ((bitmapFrom image size 4096).test i ^^ decide (r = i)) := by
  rw [← Bitmap.test_flip]
  simp only [Bitmap.test, Bitmap.flip, bitmapFrom]
  rw [formattedOver_outside (by omega) outside]
  have place : 4096 + i / 8 = 4096 + r / 8 ↔ i / 8 = r / 8 := by omega
  simp only [place]

end Bytes

section Accepted

variable {zeroed image : Bytes} {blocks nInodes r : Nat} {now : Timespec} {k : Int}

theorem inodeTableAt_eq (sized : Sized blocks nInodes k) :
    inodeTableAt blocks nInodes = (uint8 (1 + blocksFor nInodes 32768 + k)).toNat := by
  rw [inodeTableAt, sized.bitmapBlocks]

theorem rootAt_eq (sized : Sized blocks nInodes k) :
    rootAt nInodes k r = 4096 * inodeTableAt blocks nInodes + 256 * r := by
  rw [rootAt, inodeTableAt_eq sized]

theorem inodesCount_eq (small : nInodes < 2 ^ 63) : (BitVec.ofNat 64 nInodes).toInt = nInodes := by
  rw [toInt_inodes (by omega), if_pos small]

theorem freeBlocks_eq (sized : Sized blocks nInodes k) :
    (BitVec.ofInt 64 (blocksLeft blocks nInodes - k)).toInt = blocksForData blocks nInodes := by
  have some := sized.afterBitmap
  have fits := sized.bitmapFits
  rw [blocksForData, sized.bitmapBlocks, BitVec.toInt_ofInt, Int.bmod_def]
  generalize blocksLeft blocks nInodes - k = x at *
  split <;> omega

theorem fsCtxInit_root {out : Bytes} {size : Nat} (some : 0 < (A1fsSuperblock.read out).sbInodesCount) :
    (fsCtxInit out size).1.itable 0 =
      A1fsInode.read out (4096 * (A1fsSuperblock.read out).sbInodeTable) := by
  have inside : ((0 : Nat) : Int) < (A1fsSuperblock.read out).sbInodesCount := some
  simp only [fsCtxInit, inside, if_true, Nat.mul_zero, Nat.add_zero]

theorem fsCtxInit_sb {out : Bytes} {size : Nat} :
    (fsCtxInit out size).1.sb = A1fsSuperblock.read out := rfl

/-- No inode of a directory starts with the magic number. -/
theorem magic_not_root {out : Bytes} {size : Nat} (start : (A1fsSuperblock.read out).sbInodeTable = 0)
    (magic : out.word64 0 = a1fsMagic) :
    ((fsCtxInit out size).1.itable 0).mode ≠ (rootInode now).mode := by
  intro mode
  simp only [fsCtxInit, start, rootInode] at mode
  split at mode
  · have low : (out.word64 0).setWidth 32 = out.word32 0 := by
      rw [word64]
      exact BitVec.setWidth_append_eq_right
    rw [magic] at low
    simp only [A1fsInode.read, Nat.mul_zero, Nat.add_zero, ← low] at mode
    exact absurd mode (by decide)
  · exact absurd mode (by decide)

/-- With the root inode over the superblock, inode 0 is read from the magic number. -/
theorem EmptyAs.table (empty : EmptyAs zeroed (formattedOver image blocks nInodes now k r)
    (4096 * blocks) now) (recent : now.tvSec.toNat < 2 ^ 40) (sized : Sized blocks nInodes k) :
    1 ≤ inodeTableAt blocks nInodes := by
  by_contra none
  have wrapped : (uint8 (1 + blocksFor nInodes 32768 + k)).toNat = 0 := by
    rw [← inodeTableAt_eq sized]
    omega
  have start := formattedOver_table_zero blocks now image r recent wrapped
  have mode := A1fsInode.withoutSlots_mode ((fsCtxInit (formattedOver image blocks nInodes now k r)
    (4096 * blocks)).1.itable 0)
  rw [empty.root] at mode
  exact magic_not_root start (formattedOver_magic _ _ _ _ _ _) mode.symm

variable (image blocks nInodes now k r) in
theorem formattedOver_fields (sized : Sized blocks nInodes k) (small : nInodes < 2 ^ 63)
    (table : 1 ≤ inodeTableAt blocks nInodes) :
    let sb := A1fsSuperblock.read (formattedOver image blocks nInodes now k r)
    sb.sbInodesCount = nInodes ∧ sb.sbInodeBitmap = 1 ∧
      sb.sbBlockBitmap = dataBitmapAt nInodes ∧ sb.sbInodeTable = inodeTableAt blocks nInodes ∧
      sb.sbFreeBlocksCount = blocksForData blocks nInodes ∧
      sb.sbFirstEmptyDb = (image offFirstEmptyDb).toNat ∧
      sb.sbFreeInodesCount = (BitVec.ofInt 64 ((BitVec.ofNat 64 nInodes).toInt - 1)).toInt := by
  rw [inodeTableAt_eq sized] at table
  have freeBlocks := freeBlocks_eq sized
  have inodes := inodesCount_eq small
  rw [formattedOver_superblock (by omega), formattedSuperblock, freeBlocks, inodes, inodeTableAt_eq sized, dataBitmapAt]
  dsimp only
  exact ⟨rfl, rfl, rfl, rfl, rfl, rfl, rfl⟩

theorem Apart.data_outside {b : Nat} (apart : Apart blocks nInodes)
    (inside : (b : Int) < blocksForData blocks nInodes) :
    4096 * dataBitmapAt nInodes + b / 8 < 4096 * inodeTableAt blocks nInodes ∨
      4096 * inodeTableAt blocks nInodes + 188 ≤ 4096 * dataBitmapAt nInodes + b / 8 := by
  rcases apart.data with before | after
  · omega
  · omega

theorem EmptyAs.clean (empty : EmptyAs zeroed (formattedOver image blocks nInodes now k r)
    (4096 * blocks) now) (recent : now.tvSec.toNat < 2 ^ 40) (sized : Sized blocks nInodes k)
    (pos : 0 < nInodes) (small : nInodes < 2 ^ 63) (below : r < nInodes)
    (free : (bitmapFrom image (4096 * blocks) 4096).test r = false) :
    Apart blocks nInodes ∧ (∀ i < nInodes, (bitmapFrom image (4096 * blocks) 4096).test i = false) ∧
      ∀ b : Nat, (b : Int) < blocksForData blocks nInodes →
        (bitmapFrom image (4096 * blocks) (4096 * dataBitmapAt nInodes)).test b = false := by
  have table := empty.table recent sized
  obtain ⟨count, bitmapAt, dataAt, -, freeBlocks, -⟩ :=
    formattedOver_fields image blocks nInodes r now k sized small table
  have inodes := empty.inodes
  have data := empty.data
  have address := rootAt_eq (r := r) sized
  have some : 0 < blocksForData blocks nInodes := by
    rw [blocksForData, sized.bitmapBlocks]
    exact sized.afterBitmap
  rw [count, bitmapAt, Nat.mul_one] at inodes
  rw [dataAt, freeBlocks] at data
  -- the bit of the root is set, and only inode 0 may have its bit set
  obtain rfl : r = 0 := by
    by_contra other
    have marked := inodes r (by omega)
    rw [formattedOver_test_inode (by omega), free] at marked
    simp [other] at marked
  have inodesApart : nInodes ≤ 32768 * (inodeTableAt blocks nInodes - 1) ∨ nInodes = 1 := by
    by_contra overlap
    have reached := inodes (if inodeTableAt blocks nInodes = 1 then 1
      else 32768 * (inodeTableAt blocks nInodes - 1)) (by split <;> omega)
    rw [formattedOver_test_mode (by omega) (by split <;> omega)] at reached
    split at reached
    · cases reached
    · exact absurd (of_decide_eq_true reached.symm) (by omega)
  have bitmap : 2 ≤ dataBitmapAt nInodes := by
    by_contra low
    have cases : dataBitmapAt nInodes = 0 ∨ dataBitmapAt nInodes = 1 := by omega
    have bit := data 0 some
    rcases cases with zero | one
    · -- the bitmap would start with the magic number, whose first bit is set
      have byte := word64_low (m := formattedOver image blocks nInodes now k 0) (a := 0)
      rw [formattedOver_magic image blocks nInodes 0 now k] at byte
      rw [zero] at bit
      simp only [Bitmap.test, bitmapFrom, Nat.mul_zero, Nat.zero_div, Nat.add_zero, ← byte] at bit
      exact absurd bit (by decide)
    · have set := inodes 0 (by omega)
      rw [one, Nat.mul_one, set] at bit
      cases bit
  have dataApart : inodeTableAt blocks nInodes < dataBitmapAt nInodes ∨
      blocksForData blocks nInodes ≤ 32768 * (inodeTableAt blocks nInodes - dataBitmapAt nInodes) := by
    by_contra overlap
    have reached := data (32768 * (inodeTableAt blocks nInodes - dataBitmapAt nInodes)) (by omega)
    rw [formattedOver_test_mode (by omega) (by omega)] at reached
    cases reached
  refine ⟨⟨table, inodesApart, bitmap, dataApart⟩, ?_, ?_⟩
  · intro i inside
    by_cases first : i = 0
    · rw [first]
      exact free
    · have bit := inodes i (by omega)
      rw [formattedOver_test_inode (by omega)] at bit
      simpa [first, Ne.symm first] using bit
  · intro b inside
    rw [← data b inside]
    exact (formattedOver_test_other (by omega) (by omega) (by omega)).symm

theorem Clean.empty (clean : Clean image blocks nInodes) (apart : Apart blocks nInodes)
    (sized : Sized blocks nInodes k) (pos : 0 < nInodes) (small : nInodes < 2 ^ 63)
    {before : Timespec} :
    EmptyAs (formattedImage blocks nInodes before k) (formattedOver image blocks nInodes now k 0)
      (4096 * blocks) now := by
  have table := apart.table
  have inodesApart := apart.inodes
  obtain ⟨count, bitmapAt, dataAt, tableAt, freeBlocks, firstEmpty, freeInodes⟩ :=
    formattedOver_fields image blocks nInodes 0 now k sized small table
  obtain ⟨-, -, -, -, freeBlocks', firstEmpty', freeInodes'⟩ :=
    formattedOver_fields (fun _ => 0) blocks nInodes 0 before k sized small table
  rw [formattedOver_zeros] at freeBlocks' firstEmpty' freeInodes'
  have address : rootAt nInodes k 0 = 4096 * inodeTableAt blocks nInodes := by
    rw [rootAt_eq sized, Nat.mul_zero, Nat.add_zero]
  have read : (fsCtxInit (formattedOver image blocks nInodes now k 0) (4096 * blocks)).1.itable 0 =
      A1fsInode.read (writeRoot (markInode (layOut image nInodes (blocksFor nInodes 32768) k
        (blocksFor nInodes 256)) nInodes 0) (4096 * inodeTableAt blocks nInodes) now)
        (4096 * inodeTableAt blocks nInodes) := by
    rw [fsCtxInit_root (by omega), tableAt]
    refine inode_congr fun i bound => ?_
    rw [formattedOver, fillSuperblock_beyond (by omega), ← inodeTableAt_eq sized, Nat.mul_zero,
      Nat.add_zero]
  have root : ((fsCtxInit (formattedOver image blocks nInodes now k 0)
      (4096 * blocks)).1.itable 0).withoutSlots = rootInode now := by
    rw [read]
    exact read_writeRoot_fields _ _ _
  have unused : ((fsCtxInit (formattedOver image blocks nInodes now k 0)
      (4096 * blocks)).1.itable 0).lastUsedExtent = -1 := by
    rw [← A1fsInode.withoutSlots_lastUsedExtent, root]
    rfl
  refine ⟨root, ?_, ?_, ?_, ?_, ?_, fun path => ?_⟩
  · rw [count, bitmapAt, Nat.mul_one]
    intro i inside
    by_cases first : i = 0
    · subst first
      by_cases wrapped : inodeTableAt blocks nInodes = 1
      · rw [formattedOver_test_mode (by omega) (by omega)]
        rfl
      · rw [formattedOver_test_inode (by omega), clean.inodes 0 (by omega)]
        rfl
    · rw [formattedOver_test_inode (by omega), clean.inodes i (by omega)]
      simp [first, Ne.symm first]
  · rw [dataAt, freeBlocks]
    intro b inside
    have outside := apart.data_outside inside
    have bitmap := apart.bitmap
    rw [formattedOver_test_other (by omega) (by rwa [address]) (by omega)]
    exact clean.data b inside
  · rw [freeBlocks, freeBlocks']
  · rw [freeInodes, freeInodes']
  · rw [firstEmpty, firstEmpty', clean.firstEmpty]
    rfl
  · refine (getInodeNum_empty _ ?_ unused).2
    rw [fsCtxInit_sb]
    omega

end Accepted

/-- `mkfs` over an image of any contents makes the empty file system of a zeroed image exactly
    when the bytes it does not write are clean. -/
theorem formats_empty_iff {zeroed image : Bytes} {blocks nInodes : Nat} {before now : Timespec}
    (pos : 0 < nInodes) (bound : nInodes < 2 ^ 64) (recent : now.tvSec.toNat < 2 ^ 40)
    (accepted : mkfs (fun _ => 0) (4096 * blocks) nInodes before = .ok (some zeroed)) :
    (∃ out, mkfs image (4096 * blocks) nInodes now = .ok (some out) ∧
        EmptyAs zeroed out (4096 * blocks) now) ↔
      Clean image blocks nInodes ∧ Apart blocks nInodes := by
  obtain ⟨-, -, k, sized, -⟩ := mkfs_over accepted
  obtain ⟨k', sizing, -, -, small, -, rfl⟩ := mkfs_some pos bound accepted
  obtain rfl : k = k' := Except.ok.inj (sized.sizing.symm.trans sizing)
  have count := inodesCount_eq small
  constructor
  · rintro ⟨out, formats, empty⟩
    obtain ⟨unformatted, enough, j, sized', r, below, free, rfl⟩ := mkfs_over formats
    obtain rfl : j = k := Except.ok.inj (sized'.sizing.symm.trans sized.sizing)
    obtain ⟨apart, inodes, data⟩ := empty.clean recent sized pos small (by omega) free
    have firstEmpty := empty.firstEmpty
    obtain ⟨-, -, -, -, -, kept, -⟩ :=
      formattedOver_fields image blocks nInodes r now j sized small apart.table
    obtain ⟨-, -, -, -, -, zero, -⟩ := formattedOver_fields (fun _ => 0) blocks nInodes
      0 before j sized small apart.table
    rw [formattedOver_zeros] at zero
    rw [kept, zero] at firstEmpty
    exact ⟨⟨unformatted, enough, BitVec.eq_of_toNat_eq firstEmpty, inodes, data⟩, apart⟩
  · rintro ⟨clean, apart⟩
    exact ⟨_, mkfs_first now sized (by omega) clean.unformatted clean.enough (clean.inodes 0 pos),
      clean.empty apart sized pos small⟩

/-- Bytes that no call of `mkfs` reads may be anything. -/
theorem formats_empty_data : ∃ zeroed,
    mkfs (fun _ => 0) (4096 * 16) 16 ⟨0, 0⟩ = .ok (some zeroed) ∧
      ∃ out, mkfs (fun a => if a = 20480 then 0xFF#8 else 0) (4096 * 16) 16 ⟨0, 0⟩ = .ok (some out) ∧
        EmptyAs zeroed out (4096 * 16) ⟨0, 0⟩ := by
  have made := device_formats
  obtain ⟨zeroed, accepted⟩ := made
  have bits : blocksForData 16 16 = 12 := by decide
  have bitmap : dataBitmapAt 16 = 2 := by decide
  have table : inodeTableAt 16 16 = 3 := by decide
  refine ⟨zeroed, accepted, (formats_empty_iff (by decide) (by decide) (by decide) accepted).mpr
    ⟨⟨by decide, by decide, rfl, fun i inside => ?_, fun b inside => ?_⟩, ⟨?_, ?_, ?_, ?_⟩⟩⟩
  · simp only [Bitmap.test, bitmapFrom]
    rw [if_neg (by omega)]
    simp
  · rw [bits] at inside
    simp only [Bitmap.test, bitmapFrom, bitmap]
    rw [if_neg (by omega)]
    simp
  · omega
  · omega
  · omega
  · omega

/-- An image that holds a file system is not formatted again. -/
theorem formats_empty_fails : ∃ zeroed,
    mkfs (fun _ => 0) (4096 * 16) 16 ⟨0, 0⟩ = .ok (some zeroed) ∧
      ¬ ∃ out, mkfs zeroed (4096 * 16) 16 ⟨0, 0⟩ = .ok (some out) ∧
        EmptyAs zeroed out (4096 * 16) ⟨0, 0⟩ := by
  obtain ⟨zeroed, accepted⟩ := device_formats
  refine ⟨zeroed, accepted, ?_⟩
  rintro ⟨out, again, -⟩
  obtain ⟨-, -, k, -, r, -, -, rfl⟩ := mkfs_over accepted
  exact (mkfs_over again).1 (formattedOver_magic _ _ _ _ _ _)

end ExtentFs
