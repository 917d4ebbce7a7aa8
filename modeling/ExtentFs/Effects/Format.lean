import ExtentFs.Effects.Bits
import ExtentFs.Model.Format

namespace ExtentFs

open Base Base.Bytes

theorem sizeBitmap_ok {r first k : Int} {fuel : Nat} (h : sizeBitmap r fuel first = .ok k) :
    first ≤ k ∧ enoughBitmap r k = true ∧ ∀ j, first ≤ j → j < k → enoughBitmap r j = false := by
  induction fuel generalizing first with
  | zero => cases h
  | succ fuel ih =>
    rw [sizeBitmap] at h
    split at h
    · rename_i enough
      cases h
      exact ⟨le_refl _, enough, fun j above below => by omega⟩
    · rename_i short
      obtain ⟨low, enough, minimal⟩ := ih h
      refine ⟨by omega, enough, fun j above below => ?_⟩
      by_cases same : j = first
      · subst same
        exact Bool.eq_false_of_not_eq_true short
      · exact minimal j (by omega) below

theorem sizeBitmap_ends {r first k : Int} {fuel : Nat} (enough : enoughBitmap r k = true)
    (low : first ≤ k) (high : k < first + fuel) : ∃ k', sizeBitmap r fuel first = .ok k' := by
  induction fuel generalizing first with
  | zero => omega
  | succ fuel ih =>
    rw [sizeBitmap]
    split
    · exact ⟨first, rfl⟩
    · rename_i short
      have differ : first ≠ k := by
        rintro rfl
        exact short enough
      exact ih (by omega) (by omega)

theorem enoughBitmap_iff {r k : Int} (low : 0 ≤ r - k) :
    enoughBitmap r k = true ↔ (r - k < 32768 ∧ 0 ≤ k) ∨ (32768 ≤ r - k ∧ (r - k) / 32768 + 1 ≤ k) := by
  simp only [enoughBitmap, Int.tdiv_eq_ediv_of_nonneg low, ge_iff_le, decide_eq_true_eq]
  split <;> omega

theorem sizeBitmap_needed {r k : Int} {fuel : Nat} (h : sizeBitmap r fuel 1 = .ok k) (above : 1 < k)
    (room : 0 < r - k) : 32769 * (k - 1) ≤ r := by
  obtain ⟨-, -, minimal⟩ := sizeBitmap_ok h
  have short := minimal (k - 1) (by omega) (by omega)
  rw [Bool.eq_false_iff, ne_eq, enoughBitmap_iff (by omega)] at short
  omega

theorem sizeBitmap_small {r : Int} {fuel : Nat} (low : 1 ≤ r) (small : r ≤ 32768) :
    sizeBitmap r (fuel + 1) 1 = .ok 1 := by
  have enough : enoughBitmap r 1 = true := (enoughBitmap_iff (by omega)).mpr (.inl (by omega))
  simp [sizeBitmap, enough]

/-- Bit 0 of the inode bitmap, which starts at block 1, is set and the free inodes counted. -/
def markRoot (image : Bytes) (nInodes : Nat) : Bytes :=
  Bytes.set64 (fun a => if a = 4096 then 1#8 else image a) offFreeInodesCount
    (BitVec.ofInt 64 ((BitVec.ofNat 64 nInodes).toInt - 1))

def markInode (image : Bytes) (nInodes root : Nat) : Bytes :=
  Bytes.set64 (fun a => if a = 4096 + root / 8 then image a ^^^ Bitmap.mask root else image a)
    offFreeInodesCount (BitVec.ofInt 64 ((BitVec.ofNat 64 nInodes).toInt - 1))

theorem markInode_first {image : Bytes} {nInodes : Nat} (clear : image 4096 = 0#8) :
    markInode image nInodes 0 = markRoot image nInodes := by
  have marked : (fun a => if a = 4096 + 0 / 8 then image a ^^^ Bitmap.mask 0 else image a) =
      fun a => if a = 4096 then 1#8 else image a := by
    funext a
    by_cases first : a = 4096
    · subst first
      simp [clear, Bitmap.mask]
    · simp [first]
  rw [markInode, marked, markRoot]

theorem markInode_outside {image : Bytes} {nInodes root a : Nat} (beyond : 64 ≤ a)
    (other : a ≠ 4096 + root / 8) : markInode image nInodes root a = image a := by
  rw [markInode, set64_outside _ (by simp only [offFreeInodesCount]; omega), if_neg other]

theorem availableInode_first {bitmap : Bitmap} {room : Nat} (inside : 0 < bitmap.length)
    (clear : bitmap.test 0 = false) : availableInode bitmap (room + 1) 0 = .ok 0 := by
  have unused : checkBitUsage bitmap 0 = .ok false := checkBitUsage_ok.mpr ⟨by omega, clear.symm⟩
  rw [availableInode, unused]
  rfl

theorem toInt_inodes {nInodes : Nat} (bound : nInodes < 2 ^ 64) : (BitVec.ofNat 64 nInodes).toInt =
    if nInodes < 2 ^ 63 then (nInodes : Int) else nInodes - 2 ^ 64 := by
  rw [BitVec.toInt_ofNat', Int.bmod_def]
  split <;> split <;> omega

section LaidOut

variable {image rooted : Bytes} {size nInodes : Nat} {ibm dbm iblk : Int} {now : Timespec}

variable (image nInodes ibm dbm iblk) in
theorem read_layOut : A1fsSuperblock.read (layOut image nInodes ibm dbm iblk) =
    { A1fsSuperblock.read image with
      sbFirstDataBlock := (uint8 (1 + ibm + dbm + iblk)).toNat
      sbBlockBitmap := (uint8 (1 + ibm)).toNat
      sbInodeBitmap := 1
      sbInodeTable := (uint8 (1 + ibm + dbm)).toNat
      sbFreeInodesCount := (BitVec.ofNat 64 nInodes).toInt
      sbInodesCount := (BitVec.ofNat 64 nInodes).toInt } := by
  simp only [A1fsSuperblock.read, layOut, offFreeBlocksCount, offFreeInodesCount, offInodesCount,
    offInodeBitmap, offBlockBitmap, offInodeTable, offFirstDataBlock, offMagic, offSize,
    offFirstEmptyDb, offTotalDataBlocks, offUsedDirsCount]
  simp (disch := omega) only [set8_of_ne, set64_outside, set8_self, word64_set8, word64_set64,
    word64_set64_of_disjoint]
  rfl

theorem layOut_beyond {a : Nat} (beyond : 64 ≤ a) :
    layOut image nInodes ibm dbm iblk a = image a := by
  simp only [layOut, offFreeInodesCount, offInodesCount, offInodeBitmap, offBlockBitmap,
    offInodeTable, offFirstDataBlock]
  simp (disch := omega) only [set8_of_ne, set64_outside]

theorem markInode_inodeTable (root : Nat) : markInode (layOut image nInodes ibm dbm iblk) nInodes root
    offInodeTable = uint8 (1 + ibm + dbm) := by
  simp only [markInode, layOut, offFreeInodesCount, offInodesCount, offInodeBitmap, offBlockBitmap,
    offInodeTable, offFirstDataBlock]
  rw [set64_outside _ (by omega), if_neg (by omega)]
  simp (disch := omega) only [set8_of_ne, set8_self]

/-- The root takes the first inode that the bitmap says is free, whatever it was before. -/
theorem makeRoot_layOut : makeRoot (layOut image nInodes ibm dbm iblk) size now = .ok (some rooted) ↔
    ∃ r : Nat, getAvailableBit (A1fsSuperblock.read (layOut image nInodes ibm dbm iblk))
        (bitmapFrom (layOut image nInodes ibm dbm iblk) size 4096) .inode (-1) = .ok (r : Int) ∧
      4096 + r / 8 < size ∧
      rooted = writeRoot (markInode (layOut image nInodes ibm dbm iblk) nInodes r)
        (4096 * (uint8 (1 + ibm + dbm)).toNat + 256 * r) now := by
  have table (r : Nat) : markInode (layOut image nInodes ibm dbm iblk) nInodes r offInodeTable =
      uint8 (1 + ibm + dbm) := markInode_inodeTable r
  have fields := read_layOut image nInodes ibm dbm iblk
  generalize layOut image nInodes ibm dbm iblk = laid at *
  have bitmapAt : (A1fsSuperblock.read laid).sbInodeBitmap = 1 := by rw [fields]
  have freed : (A1fsSuperblock.read laid).sbFreeInodesCount = (BitVec.ofNat 64 nInodes).toInt := by
    rw [fields]
  have marked {r : Nat} (inside : 4096 + r / 8 < size) : (fun a => if 4096 ≤ a ∧ a < size then
      ((bitmapFrom laid size 4096).flip r).byte (a - 4096) else laid a) =
      fun a => if a = 4096 + r / 8 then laid a ^^^ Bitmap.mask r else laid a := by
    funext a
    by_cases within : 4096 ≤ a ∧ a < size
    · have back : 4096 + (a - 4096) = a := by omega
      have place : a - 4096 = r / 8 ↔ a = 4096 + r / 8 := by omega
      simp only [within, and_self, if_true, Bitmap.flip, bitmapFrom, back, place]
    · rw [if_neg within, if_neg (by omega)]
  simp only [makeRoot, bitmapAt, Nat.mul_one, bind_eq_ok]
  constructor
  · rintro ⟨root, found, h⟩
    split at h
    · cases h
    · rename_i some
      rw [bind_eq_ok] at h
      obtain ⟨⟨sb', bits⟩, flipped, h⟩ := h
      obtain ⟨inside, rfl, rfl⟩ := setBits_inode_ok.mp flipped
      obtain ⟨r, rfl⟩ : ∃ r : Nat, root = r := by
        rcases getAvailableBit_inode found with none | ⟨r, same, -⟩
        · exact absurd none some
        · exact ⟨r, same⟩
      rw [Int.toNat_natCast] at inside h
      have inside' : 4096 + r / 8 < size := by
        simp only [bitmapFrom] at inside
        omega
      rw [pure_eq_ok, marked inside', freed] at h
      refine ⟨r, found, inside', ?_⟩
      rw [← table r]
      exact (Option.some.inj h).symm
  · rintro ⟨r, found, inside, rfl⟩
    refine ⟨r, found, ?_⟩
    rw [if_neg (by omega), bind_eq_ok]
    refine ⟨_, setBits_inode_ok.mpr ⟨?_, rfl, rfl⟩, ?_⟩
    · simp only [bitmapFrom, Int.toNat_natCast]
      omega
    · rw [Int.toNat_natCast, pure_eq_ok, marked inside, freed, ← table r]
      rfl

theorem bitmapFrom_congr {image' : Bytes} {a r : Nat}
    (same : image (a + r / 8) = image' (a + r / 8)) :
    (bitmapFrom image size a).test r = (bitmapFrom image' size a).test r := by
  simp only [Bitmap.test, bitmapFrom, same]

theorem getAvailableBit_enough {sb : A1fsSuperblock} {bitmap : Bitmap} {bmType : BitmapType}
    {n r : Int} (h : getAvailableBit sb bitmap bmType n = .ok r) (found : r ≠ -1) :
    n ≤ sb.sbFreeBlocksCount := by
  unfold getAvailableBit at h
  split at h
  · cases h
    exact absurd rfl found
  · omega

theorem getAvailableBit_layOut {r : Nat}
    (h : getAvailableBit (A1fsSuperblock.read (layOut image nInodes ibm dbm iblk))
      (bitmapFrom (layOut image nInodes ibm dbm iblk) size 4096) .inode (-1) = .ok (r : Int)) :
    -1 ≤ (image.word64 offFreeBlocksCount).toInt ∧ (r : Int) < (BitVec.ofNat 64 nInodes).toInt ∧
      (bitmapFrom image size 4096).test r = false := by
  have enough := getAvailableBit_enough h (by omega)
  rw [read_layOut] at enough
  obtain ⟨below, clear⟩ := getAvailableBit_free h
  refine ⟨enough, ?_, ?_⟩
  · rw [read_layOut] at below
    exact below
  · rw [← clear]
    exact bitmapFrom_congr (layOut_beyond (by omega)).symm

variable (ibm dbm iblk) in
theorem getAvailableBit_first (enough : -1 ≤ (image.word64 offFreeBlocksCount).toInt)
    (some : 0 < (BitVec.ofNat 64 nInodes).toInt) (inside : 4096 < size)
    (clear : (bitmapFrom image size 4096).test 0 = false) :
    getAvailableBit (A1fsSuperblock.read (layOut image nInodes ibm dbm iblk))
      (bitmapFrom (layOut image nInodes ibm dbm iblk) size 4096) .inode (-1) = .ok ((0 : Nat) : Int) := by
  have free : (A1fsSuperblock.read (layOut image nInodes ibm dbm iblk)).sbFreeBlocksCount =
      (image.word64 offFreeBlocksCount).toInt := by
    rw [read_layOut]
    rfl
  have inodes : (A1fsSuperblock.read (layOut image nInodes ibm dbm iblk)).sbFreeInodesCount =
      (BitVec.ofNat 64 nInodes).toInt := by rw [read_layOut]
  have count : (A1fsSuperblock.read (layOut image nInodes ibm dbm iblk)).sbInodesCount =
      (BitVec.ofNat 64 nInodes).toInt := by rw [read_layOut]
  rw [getAvailableBit, if_neg (by omega), if_neg (by omega), count]
  obtain ⟨k, succ⟩ : ∃ k, (BitVec.ofNat 64 nInodes).toInt.toNat = k + 1 :=
    ⟨(BitVec.ofNat 64 nInodes).toInt.toNat - 1, by omega⟩
  rw [succ]
  apply availableInode_first (by simp only [bitmapFrom]; omega)
  rw [← clear]
  exact bitmapFrom_congr (layOut_beyond (by omega))

end LaidOut

def blocksLeft (blocks nInodes : Nat) : Int :=
  toInt blocks - 1 - blocksFor nInodes 32768 - blocksFor nInodes 256

/-- What the arithmetic of `mkfs` asks of its inputs; `k` blocks hold the data bitmap. -/
structure Sized (blocks nInodes : Nat) (k : Int) : Prop where
  sizing : sizeBitmap (blocksLeft blocks nInodes) ((blocksLeft blocks nInodes).toNat + 1) 1 = .ok k
  afterSuperblock : 0 < toInt blocks - 1
  afterInodeBitmap : 0 < toInt blocks - 1 - blocksFor nInodes 32768
  afterTable : 0 < blocksLeft blocks nInodes
  afterBitmap : 0 < blocksLeft blocks nInodes - k
  inodeBitmapFits : toInt blocks - 1 - blocksFor nInodes 32768 < 2 ^ 31
  tableFits : blocksLeft blocks nInodes < 2 ^ 31
  bitmapFits : blocksLeft blocks nInodes - k < 2 ^ 31

theorem mkfs_eq_ok {blocks nInodes : Nat} {now : Timespec} {image out : Bytes} :
    mkfs image (4096 * blocks) nInodes now = .ok (some out) ↔
      image.word64 offMagic ≠ a1fsMagic ∧ ∃ k, Sized blocks nInodes k ∧ ∃ rooted,
        makeRoot (layOut image nInodes (blocksFor nInodes 32768) k (blocksFor nInodes 256))
          (4096 * blocks) now = .ok (some rooted) ∧
        out = fillSuperblock rooted (4096 * blocks) (blocksLeft blocks nInodes - k) := by
  have quotient : 4096 * blocks / 4096 = blocks := by omega
  have narrowed := toInt_bounds blocks
  constructor
  · intro h
    simp only [mkfs, quotient] at h
    split at h
    · cases h
    rename_i unformatted
    rw [bind_eq_ok] at h
    obtain ⟨b1, arith, h⟩ := h
    have first := (intArith_ok.mp arith).2
    split at h
    · cases h
    rw [bind_eq_ok] at h
    obtain ⟨b2, arith, h⟩ := h
    obtain ⟨⟨-, secondFits⟩, second⟩ := intArith_ok.mp arith
    split at h
    · cases h
    rw [bind_eq_ok] at h
    obtain ⟨b3, arith, h⟩ := h
    obtain ⟨⟨-, thirdFits⟩, third⟩ := intArith_ok.mp arith
    have left : blocksLeft blocks nInodes = b3 := by
      rw [blocksLeft, third, second, first]
    split at h
    · cases h
    rw [bind_eq_ok] at h
    obtain ⟨k, sizing, h⟩ := h
    rw [bind_eq_ok] at h
    obtain ⟨b4, arith, h⟩ := h
    obtain ⟨⟨-, fourthFits⟩, fourth⟩ := intArith_ok.mp arith
    split at h
    · cases h
    rw [bind_eq_ok] at h
    obtain ⟨rooted, root, h⟩ := h
    cases rooted with
    | none => cases h
    | some rooted =>
      refine ⟨unformatted, k, ⟨?_, ?_, ?_, ?_, ?_, ?_, ?_, ?_⟩, rooted, root, ?_⟩
      · rw [left]
        exact sizing
      · rw [← first]
        omega
      · rw [← first, ← second]
        omega
      · rw [left]
        omega
      · rw [left, ← fourth]
        omega
      · rw [← first]
        exact secondFits
      · rw [left, third]
        exact thirdFits
      · rw [left]
        exact fourthFits
      · rw [left, ← fourth]
        exact (Option.some.inj (Except.ok.inj h)).symm
  · rintro ⟨unformatted, k, sized, rooted, root, rfl⟩
    obtain ⟨sizing, first, second, third, fourth, fits2, fits3, fits4⟩ := sized
    have left : toInt blocks - 1 - blocksFor nInodes 32768 - blocksFor nInodes 256 =
        blocksLeft blocks nInodes := rfl
    simp only [mkfs, quotient]
    rw [if_neg unformatted, intArith_ok.mpr ⟨⟨by omega, by omega⟩, rfl⟩, ok_bind, if_neg (by omega),
      intArith_ok.mpr ⟨⟨by omega, by omega⟩, rfl⟩, ok_bind, if_neg (by omega),
      intArith_ok.mpr ⟨⟨by omega, by omega⟩, rfl⟩, ok_bind, if_neg (by omega), left, sizing, ok_bind,
      intArith_ok.mpr ⟨⟨by omega, by omega⟩, rfl⟩, ok_bind, if_neg (by omega), root]
    rfl

theorem Sized.size {blocks nInodes : Nat} {k : Int} (sized : Sized blocks nInodes k) :
    4096 < 4096 * blocks := by
  have first := sized.afterSuperblock
  have narrowed := toInt_natCast_le blocks
  omega

/-- An accepted image: the superblock, the mark of the root and the root inode, written into
    zeros. -/
def formattedImage (blocks nInodes : Nat) (now : Timespec) (k : Int) : Bytes :=
  fillSuperblock
    (writeRoot
      (markRoot
        (layOut (fun _ => 0) nInodes (blocksFor nInodes 32768) k (blocksFor nInodes 256)) nInodes)
      (4096 * (uint8 (1 + blocksFor nInodes 32768 + k)).toNat) now)
    (4096 * blocks) (blocksLeft blocks nInodes - k)

/-- An accepted image over what it held before, with the inode `r` for the root. -/
def formattedOver (image : Bytes) (blocks nInodes : Nat) (now : Timespec) (k : Int) (r : Nat) : Bytes :=
  fillSuperblock
    (writeRoot
      (markInode
        (layOut image nInodes (blocksFor nInodes 32768) k (blocksFor nInodes 256)) nInodes r)
      (4096 * (uint8 (1 + blocksFor nInodes 32768 + k)).toNat + 256 * r) now)
    (4096 * blocks) (blocksLeft blocks nInodes - k)

theorem formattedOver_zeros {blocks nInodes : Nat} {now : Timespec} {k : Int} :
    formattedOver (fun _ => 0) blocks nInodes now k 0 = formattedImage blocks nInodes now k := by
  rw [formattedOver, markInode_first (layOut_beyond (by omega)), Nat.mul_zero, Nat.add_zero,
    formattedImage]

theorem mkfs_over {blocks nInodes : Nat} {now : Timespec} {image out : Bytes}
    (h : mkfs image (4096 * blocks) nInodes now = .ok (some out)) :
    image.word64 offMagic ≠ a1fsMagic ∧ -1 ≤ (image.word64 offFreeBlocksCount).toInt ∧
      ∃ k, Sized blocks nInodes k ∧ ∃ r : Nat, (r : Int) < (BitVec.ofNat 64 nInodes).toInt ∧
        (bitmapFrom image (4096 * blocks) 4096).test r = false ∧
        out = formattedOver image blocks nInodes now k r := by
  obtain ⟨unformatted, k, sized, rooted, root, rfl⟩ := mkfs_eq_ok.mp h
  obtain ⟨r, found, -, rfl⟩ := makeRoot_layOut.mp root
  obtain ⟨enough, below, clear⟩ := getAvailableBit_layOut found
  exact ⟨unformatted, enough, k, sized, r, below, clear, rfl⟩

theorem mkfs_first {blocks nInodes : Nat} (now : Timespec) {image : Bytes} {k : Int}
    (sized : Sized blocks nInodes k) (some : 0 < (BitVec.ofNat 64 nInodes).toInt)
    (unformatted : image.word64 offMagic ≠ a1fsMagic)
    (enough : -1 ≤ (image.word64 offFreeBlocksCount).toInt)
    (clear : (bitmapFrom image (4096 * blocks) 4096).test 0 = false) :
    mkfs image (4096 * blocks) nInodes now = .ok (.some (formattedOver image blocks nInodes now k 0)) := by
  have first := getAvailableBit_first (blocksFor nInodes 32768) k (blocksFor nInodes 256) enough some
    sized.size clear
  exact mkfs_eq_ok.mpr ⟨unformatted, k, sized, _, makeRoot_layOut.mpr ⟨0, first, sized.size, rfl⟩, rfl⟩

theorem mkfs_some {blocks nInodes : Nat} {now : Timespec} {image : Bytes} (pos : 0 < nInodes)
    (bound : nInodes < 2 ^ 64)
    (h : mkfs (fun _ => 0) (4096 * blocks) nInodes now = .ok (some image)) :
    ∃ k, sizeBitmap (blocksLeft blocks nInodes) ((blocksLeft blocks nInodes).toNat + 1) 1 = .ok k ∧
      0 < toInt blocks - 1 ∧ 0 < blocksLeft blocks nInodes - k ∧ nInodes < 2 ^ 63 ∧
      blocksLeft blocks nInodes - k < 2 ^ 31 ∧
      image = formattedImage blocks nInodes now k := by
  obtain ⟨unformatted, enough, k, sized, r, below, -, -⟩ := mkfs_over h
  have count := toInt_inodes bound
  have small : nInodes < 2 ^ 63 := by
    by_contra large
    rw [if_neg large] at count
    omega
  have first := mkfs_first now sized (by omega) unformatted enough
    (by simp [Bitmap.test, bitmapFrom])
  rw [first, formattedOver_zeros] at h
  exact ⟨k, sized.sizing, sized.afterSuperblock, sized.afterBitmap, small, sized.bitmapFits,
    (Option.some.inj (Except.ok.inj h)).symm⟩

theorem read_fillSuperblock (image : Bytes) (size : Nat) (left : Int) :
    A1fsSuperblock.read (fillSuperblock image size left) =
      { A1fsSuperblock.read image with
        magic := a1fsMagic
        size := (BitVec.ofNat 64 size).toNat
        sbTotalDataBlocks :=
          (BitVec.ofInt 8 (size / 4096 - (A1fsSuperblock.read image).sbFirstDataBlock : Int)).toNat
        sbFreeBlocksCount := (BitVec.ofInt 64 left).toInt
        sbUsedDirsCount := 1 } := by
  simp only [A1fsSuperblock.read, fillSuperblock, offFreeBlocksCount, offFreeInodesCount,
    offInodesCount, offInodeBitmap, offBlockBitmap, offInodeTable, offFirstDataBlock, offMagic,
    offSize, offFirstEmptyDb, offTotalDataBlocks, offUsedDirsCount]
  simp (disch := omega) only [set8_of_ne, set64_outside, set8_self, word64_set8, word64_set64,
    word64_set64_of_disjoint]
  rfl

theorem fillSuperblock_beyond {image : Bytes} {size a : Nat} {left : Int} (beyond : 64 ≤ a) :
    fillSuperblock image size left a = image a := by
  simp only [fillSuperblock, offFreeBlocksCount, offMagic, offSize, offTotalDataBlocks,
    offUsedDirsCount]
  simp (disch := omega) only [set8_of_ne, set64_outside]

theorem superblock_congr {image image' : Bytes} (same : ∀ a < 64, image a = image' a) :
    A1fsSuperblock.read image = A1fsSuperblock.read image' := by
  have word (a : Nat) (low : a + 8 ≤ 64) : image.word64 a = image'.word64 a :=
    word64_congr fun i bound => same _ (by omega)
  simp only [A1fsSuperblock.read, offFreeBlocksCount, offFreeInodesCount, offInodesCount,
    offInodeBitmap, offBlockBitmap, offInodeTable, offFirstDataBlock, offMagic, offSize,
    offFirstEmptyDb, offTotalDataBlocks, offUsedDirsCount]
  simp (disch := omega) only [word, same]

theorem writeHeader_outside {inode : A1fsInode} {image : Bytes} {addr x : Nat}
    (outside : x < addr ∨ addr + 188 ≤ x) : inode.writeHeader image addr x = image x := by
  simp only [A1fsInode.writeHeader]
  simp (disch := omega) only [set32_outside, set64_outside]

theorem writeRoot_outside {image : Bytes} {addr x : Nat} {now : Timespec}
    (outside : x < addr ∨ addr + 188 ≤ x) : writeRoot image addr now x = image x := by
  simp only [writeRoot, writeHeader_outside outside]

theorem inode_congr {image image' : Bytes} {addr addr' : Nat}
    (same : ∀ i < 256, image (addr + i) = image' (addr' + i)) :
    A1fsInode.read image addr = A1fsInode.read image' addr' := by
  have word32 (i : Nat) (low : i + 4 ≤ 256) : image.word32 (addr + i) = image'.word32 (addr' + i) := by
    refine word32_congr fun j bound => ?_
    rw [Nat.add_assoc, Nat.add_assoc]
    exact same _ (by omega)
  have word64 (i : Nat) (low : i + 8 ≤ 256) : image.word64 (addr + i) = image'.word64 (addr' + i) := by
    refine word64_congr fun j bound => ?_
    rw [Nat.add_assoc, Nat.add_assoc]
    exact same _ (by omega)
  have extent (i : Nat) : (if i < 12 then A1fsExtent.read image (addr + 32 + 12 * i) else ⟨0, 0, 0⟩) =
      if i < 12 then A1fsExtent.read image' (addr' + 32 + 12 * i) else ⟨0, 0, 0⟩ := by
    split
    · simp only [A1fsExtent.read, Nat.add_assoc, word32 _ (show 32 + 12 * i + 4 ≤ 256 by omega),
        word32 _ (show 32 + (12 * i + 4) + 4 ≤ 256 by omega),
        word32 _ (show 32 + (12 * i + 8) + 4 ≤ 256 by omega)]
    · rfl
  have mode := word32 0 (by omega)
  simp only [Nat.add_zero] at mode
  simp only [A1fsInode.read, mode, word32 4 (by omega), word64 8 (by omega), word64 16 (by omega),
    word64 24 (by omega), extent, word32 176 (by omega), word32 180 (by omega),
    word32 184 (by omega)]

def rootInode (now : Timespec) : A1fsInode where
  mode := sIfdir ||| 0o777#32
  links := 2
  size := 256
  iMtime := now
  iExtent := fun _ => ⟨0, 0, 0⟩
  lastUsedExtent := -1
  lastUsedIndirect := -1
  numEntries := 0

def zeroInode : A1fsInode := A1fsInode.read (fun _ => 0) 0

theorem read_writeRoot_fields (image : Bytes) (addr : Nat) (now : Timespec) :
    { A1fsInode.read (writeRoot image addr now) addr with iExtent := (rootInode now).iExtent } =
      rootInode now := by
  simp only [writeRoot, A1fsInode.writeHeader, A1fsInode.read, createInode, rootInode]
  simp (disch := omega) only [word32_set32, word64_set64, word32_set32_of_disjoint, word32_set64,
    word64_set32, word64_set64_of_disjoint]
  simp

theorem read_writeRoot {image : Bytes} {addr : Nat} {now : Timespec}
    (zero : ∀ i < 256, image (addr + i) = 0#8) :
    A1fsInode.read (writeRoot image addr now) addr = rootInode now := by
  have extents (i : Nat) (low : i < 12) :
      A1fsExtent.read (writeRoot image addr now) (addr + 32 + 12 * i) = ⟨0, 0, 0⟩ := by
    have word (j : Nat) (after : 32 ≤ j) (before : j + 4 ≤ 176) :
        (writeRoot image addr now).word32 (addr + j) = 0#32 := by
      have zeros : Bytes.word32 (fun _ => 0#8) (addr + j) = 0#32 := by
        simp only [Bytes.word32]
        decide
      rw [← zeros]
      simp only [writeRoot, A1fsInode.writeHeader]
      simp (disch := omega) only [word32_set32_of_disjoint, word32_set64]
      refine word32_congr fun i bound => ?_
      rw [Nat.add_assoc, zero _ (by omega)]
    simp only [A1fsExtent.read, Nat.add_assoc, word (32 + 12 * i) (by omega) (by omega),
      word (32 + (12 * i + 4)) (by omega) (by omega),
      word (32 + (12 * i + 8)) (by omega) (by omega)]
    rfl
  have slots : (fun i => if i < 12 then A1fsExtent.read (writeRoot image addr now) (addr + 32 + 12 * i)
      else ⟨0, 0, 0⟩) = fun _ => (⟨0, 0, 0⟩ : A1fsExtent) := by
    funext i
    split
    · rename_i low
      exact extents i low
    · rfl
  have fields := read_writeRoot_fields image addr now
  rw [← fields]
  simp only [A1fsInode.read, slots, rootInode]

theorem read_markInode (image : Bytes) (nInodes r : Nat) :
    A1fsSuperblock.read (markInode image nInodes r) =
      { A1fsSuperblock.read image with
        sbFreeInodesCount := (BitVec.ofInt 64 ((BitVec.ofNat 64 nInodes).toInt - 1)).toInt } := by
  have same : A1fsSuperblock.read
      (fun a => if a = 4096 + r / 8 then image a ^^^ Bitmap.mask r else image a) =
      A1fsSuperblock.read image := superblock_congr fun a low => if_neg (by omega)
  rw [← same]
  simp only [A1fsSuperblock.read, markInode, offFreeBlocksCount, offFreeInodesCount, offInodesCount,
    offInodeBitmap, offBlockBitmap, offInodeTable, offFirstDataBlock, offMagic, offSize,
    offFirstEmptyDb, offTotalDataBlocks, offUsedDirsCount]
  simp (disch := omega) only [set64_outside, word64_set64, word64_set64_of_disjoint]
  rfl

section Accepted

variable {blocks nInodes : Nat} {now : Timespec} {k : Int}

/-- The superblock that `mkfs` leaves; the number of the first empty block is the one that was there. -/
def formattedSuperblock (blocks nInodes : Nat) (k : Int) (firstEmptyDb : Nat) : A1fsSuperblock :=
  let first := (uint8 (1 + blocksFor nInodes 32768 + k + blocksFor nInodes 256)).toNat
  { magic := a1fsMagic
    size := (BitVec.ofNat 64 (4096 * blocks)).toNat
    sbFirstDataBlock := first
    sbFirstEmptyDb := firstEmptyDb
    sbTotalDataBlocks := (BitVec.ofInt 8 (blocks - first : Int)).toNat
    sbBlockBitmap := (uint8 (1 + blocksFor nInodes 32768)).toNat
    sbInodeBitmap := 1
    sbInodeTable := (uint8 (1 + blocksFor nInodes 32768 + k)).toNat
    sbFreeBlocksCount := (BitVec.ofInt 64 (blocksLeft blocks nInodes - k)).toInt
    sbFreeInodesCount := (BitVec.ofInt 64 ((BitVec.ofNat 64 nInodes).toInt - 1)).toInt
    sbInodesCount := (BitVec.ofNat 64 nInodes).toInt
    sbUsedDirsCount := 1 }

theorem formattedOver_superblock {image : Bytes} {r : Nat}
    (table : (uint8 (1 + blocksFor nInodes 32768 + k)).toNat ≠ 0) :
    A1fsSuperblock.read (formattedOver image blocks nInodes now k r) =
      formattedSuperblock blocks nInodes k (image offFirstEmptyDb).toNat := by
  have outside (image : Bytes) : A1fsSuperblock.read (writeRoot image
      (4096 * (uint8 (1 + blocksFor nInodes 32768 + k)).toNat + 256 * r) now) =
      A1fsSuperblock.read image :=
    superblock_congr fun a low => writeRoot_outside (by omega)
  have quotient : (4096 * blocks : Nat) / (4096 : Int) = blocks := by omega
  rw [formattedOver, read_fillSuperblock, outside, read_markInode, read_layOut]
  simp only [quotient]
  rfl

variable (blocks now) in
theorem formattedImage_superblock (table : (uint8 (1 + blocksFor nInodes 32768 + k)).toNat ≠ 0) :
    A1fsSuperblock.read (formattedImage blocks nInodes now k) = formattedSuperblock blocks nInodes k 0 := by
  rw [← formattedOver_zeros, formattedOver_superblock table]
  rfl

variable (blocks now) in
/-- A root inode written over the superblock leaves 0 in the field `sb_inode_table`. -/
theorem formattedOver_table_zero (image : Bytes) (r : Nat) (recent : now.tvSec.toNat < 2 ^ 40)
    (table : (uint8 (1 + blocksFor nInodes 32768 + k)).toNat = 0) :
    (A1fsSuperblock.read (formattedOver image blocks nInodes now k r)).sbInodeTable = 0 := by
  have byte (m : Bytes) : writeRoot m 0 now 21 = 0#8 := by
    simp only [writeRoot, A1fsInode.writeHeader]
    simp (disch := omega) only [set32_outside]
    rw [set64_outside _ (by omega)]
    have inside (m : Bytes) : m.set64 16 now.tvSec 21 = (now.tvSec.extractLsb' 32 32).extractLsb' 8 8 :=
      store_inside (i := 5) (by simp [bytes32])
    rw [inside]
    apply BitVec.eq_of_toNat_eq
    simp only [BitVec.extractLsb'_toNat, Nat.shiftRight_eq_div_pow, BitVec.toNat_ofNat]
    omega
  have kept : writeRoot (markInode
      (layOut image nInodes (blocksFor nInodes 32768) k (blocksFor nInodes 256)) nInodes r)
      (256 * r) now offInodeTable = 0#8 := by
    by_cases first : r = 0
    · subst first
      exact byte _
    · rw [writeRoot_outside (by simp only [offInodeTable]; omega), markInode_inodeTable]
      exact BitVec.eq_of_toNat_eq table
  rw [formattedOver, read_fillSuperblock, table, Nat.mul_zero, Nat.zero_add]
  simp only [A1fsSuperblock.read, kept]
  rfl

end Accepted

end ExtentFs
