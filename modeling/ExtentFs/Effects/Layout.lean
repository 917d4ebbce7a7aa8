import ExtentFs.Effects.Format
import ExtentFs.Model.System

namespace ExtentFs

open Base Base.Bytes

theorem uint8_toNat (x : Int) : ((uint8 x).toNat : Int) = x % 256 := by
  rw [uint8, BitVec.toNat_ofInt]
  omega

section Small

variable {n : Nat}

theorem bitmapBlocks_small (pos : 0 < n) (small : n ≤ 32768) : blocksFor n 32768 = 1 := by
  rw [blocksFor, toInt_of_fits]
  all_goals split <;> omega

theorem tableBlocks_small (small : n ≤ 65535) : blocksFor n 256 = ((n + 255) / 256 : Nat) := by
  rw [blocksFor, toInt_of_fits]
  all_goals split <;> omega

end Small

section Disjoint

variable {sb : A1fsSuperblock} {blocks nInodes : Nat}

theorem RegionsDisjoint.table (disjoint : RegionsDisjoint sb (4096 * blocks) nInodes)
    (pos : 0 < nInodes) :
    1 ≤ sb.sbInodeTable ∧ nInodes ≤ 16 * (sb.sbFirstDataBlock - sb.sbInodeTable) ∧
      sb.sbFirstDataBlock ≤ blocks ∧ sb.sbInodeTable ≠ sb.sbInodeBitmap := by
  simp only [RegionsDisjoint, regions, List.mem_cons, List.not_mem_nil, or_false, forall_eq_or_imp,
    forall_eq, List.pairwise_cons, List.Pairwise.nil, and_true] at disjoint
  omega

theorem RegionsDisjoint.bitmap (disjoint : RegionsDisjoint sb (4096 * blocks) nInodes)
    (pos : 0 < nInodes) (inodes : sb.sbInodeBitmap = 1) (data : sb.sbBlockBitmap = 2)
    (some : sb.sbFirstDataBlock < blocks) :
    3 ≤ sb.sbInodeTable ∧ blocks - sb.sbFirstDataBlock ≤ 32768 * (sb.sbInodeTable - 2) := by
  simp only [RegionsDisjoint, regions, List.mem_cons, List.not_mem_nil, or_false, forall_eq_or_imp,
    forall_eq, List.pairwise_cons, List.Pairwise.nil, and_true] at disjoint
  have quotient : 4096 * blocks / 4096 = blocks := by omega
  rw [quotient] at disjoint
  omega

/-- With a byte for the number of the first data block, the regions before it are small. -/
theorem RegionsDisjoint.few (disjoint : RegionsDisjoint sb (4096 * blocks) nInodes) (pos : 0 < nInodes)
    (byte : sb.sbFirstDataBlock < 256) : nInodes ≤ 4080 ∧ blocks ≤ 32768 * 253 + 255 := by
  simp only [RegionsDisjoint, regions, List.mem_cons, List.not_mem_nil, or_false, forall_eq_or_imp,
    forall_eq, List.pairwise_cons, List.Pairwise.nil, and_true] at disjoint
  have quotient : 4096 * blocks / 4096 = blocks := by omega
  rw [quotient] at disjoint
  omega

end Disjoint

/-- The shape of an image whose parts are disjoint: one block for the inode bitmap, one for
    the inode table, `bitmapBlocks` for the data bitmap. -/
structure Geometry (blocks nInodes bitmapBlocks : Nat) : Prop where
  someInode : 0 < nInodes
  oneTableBlock : nInodes ≤ 16
  someBitmap : 1 ≤ bitmapBlocks
  fitsByte : bitmapBlocks ≤ 252
  someData : 3 + bitmapBlocks < blocks
  covered : blocks - (3 + bitmapBlocks) ≤ 32768 * bitmapBlocks

section Disjoint

variable {blocks nInodes : Nat} {now : Timespec} {k : Int} {fuel : Nat}

theorem firstDataBlock_byte (image : Bytes) : (A1fsSuperblock.read image).sbFirstDataBlock < 256 :=
  (image offFirstDataBlock).isLt

/-- The number of the inode table wraps to 0 behind 254 bitmap blocks only, which do not fit. -/
theorem table_nonzero (pos : 0 < nInodes)
    (sizing : sizeBitmap (blocksLeft blocks nInodes) fuel 1 = .ok k)
    (room : 0 < blocksLeft blocks nInodes - k)
    (disjoint : RegionsDisjoint (A1fsSuperblock.read (formattedImage blocks nInodes now k))
      (4096 * blocks) nInodes) : (uint8 (1 + blocksFor nInodes 32768 + k)).toNat ≠ 0 := by
  intro zero
  obtain ⟨inodes, small⟩ := disjoint.few pos (firstDataBlock_byte _)
  have oneBlock := bitmapBlocks_small pos (by omega)
  have wrap := uint8_toNat (1 + blocksFor nInodes 32768 + k)
  rw [zero, oneBlock] at wrap
  have low := (sizeBitmap_ok sizing).1
  have needed := sizeBitmap_needed sizing (by omega) room
  have narrowed := toInt_natCast_le blocks
  rw [blocksLeft, oneBlock, tableBlocks_small (by omega)] at needed
  omega

/-- Disjointness bounds the two inputs of `mkfs`; the fields of the superblock do not wrap. -/
theorem geometry_of_disjoint (pos : 0 < nInodes)
    (sizing : sizeBitmap (blocksLeft blocks nInodes) fuel 1 = .ok k)
    (room : 0 < blocksLeft blocks nInodes - k)
    (disjoint : RegionsDisjoint (A1fsSuperblock.read (formattedImage blocks nInodes now k))
      (4096 * blocks) nInodes) :
    ∃ d : Nat, k = d ∧ Geometry blocks nInodes d ∧ blocksLeft blocks nInodes - k = blocks - (3 + d) := by
  have shape := formattedImage_superblock blocks now (table_nonzero pos sizing room disjoint)
  obtain ⟨table, inodes, inside, -⟩ := disjoint.table pos
  have bitmap := disjoint.bitmap pos
  rw [shape, formattedSuperblock] at table inodes inside bitmap
  have wrapT := uint8_toNat (1 + blocksFor nInodes 32768 + k)
  have wrapF := uint8_toNat (1 + blocksFor nInodes 32768 + k + blocksFor nInodes 256)
  have wrapB := uint8_toNat (1 + blocksFor nInodes 32768)
  have left : blocksLeft blocks nInodes =
      toInt blocks - 1 - blocksFor nInodes 32768 - blocksFor nInodes 256 := rfl
  have oneBlock := bitmapBlocks_small (n := nInodes) pos
  have tableBlocks := tableBlocks_small (n := nInodes)
  have narrowed := toInt_natCast_le blocks
  have fits := toInt_of_fits (x := blocks)
  have low := (sizeBitmap_ok sizing).1
  have needed := sizeBitmap_needed sizing
  simp only at table inodes inside bitmap
  clear shape sizing disjoint
  generalize (uint8 (1 + blocksFor nInodes 32768 + k)).toNat = T at *
  generalize (uint8 (1 + blocksFor nInodes 32768 + k + blocksFor nInodes 256)).toNat = F at *
  generalize (uint8 (1 + blocksFor nInodes 32768)).toNat = B at *
  generalize toInt blocks = total at *
  generalize blocksFor nInodes 32768 = bitmapBlocks at *
  generalize blocksFor nInodes 256 = inodeBlocks at *
  generalize blocksLeft blocks nInodes = remaining at *
  have one := oneBlock (by omega)
  have table := tableBlocks (by omega)
  have sixteen : nInodes ≤ 16 := by omega
  have some : F < blocks := by omega
  obtain ⟨after, covered⟩ := bitmap trivial (by omega) some
  have exact_ := fits (by omega) (by omega)
  have noWrap : k < 254 := by
    by_contra large
    have := needed (by omega) (by omega)
    omega
  exact ⟨k.toNat, by omega, ⟨pos, sixteen, by omega, by omega, by omega, by omega⟩, by omega⟩

end Disjoint

def formatted (blocks nInodes bitmapBlocks : Nat) (now : Timespec) : FsCtx where
  size := 4096 * blocks
  sb :=
    { magic := a1fsMagic
      size := 4096 * blocks
      sbFirstDataBlock := 3 + bitmapBlocks
      sbFirstEmptyDb := 0
      sbTotalDataBlocks := (blocks - (3 + bitmapBlocks)) % 256
      sbBlockBitmap := 2
      sbInodeBitmap := 1
      sbInodeTable := 2 + bitmapBlocks
      sbFreeBlocksCount := (blocks - (3 + bitmapBlocks) : Nat)
      sbFreeInodesCount := (nInodes - 1 : Nat)
      sbInodesCount := nInodes
      sbUsedDirsCount := 1 }
  inodeBits := { length := 4096, byte := fun k => if k = 0 then 1#8 else 0#8 }
  blockBits := { length := 4096 * bitmapBlocks, byte := fun _ => 0#8 }
  itable := fun i => if i = 0 then rootInode now else zeroInode
  data := fun _ => 0#8

section Mounted

variable {blocks nInodes d : Nat} {now : Timespec}

theorem Geometry.blocksFor_bitmap (g : Geometry blocks nInodes d) : blocksFor nInodes 32768 = 1 :=
  bitmapBlocks_small g.someInode (by have := g.oneTableBlock; omega)

theorem Geometry.blocksFor_table (g : Geometry blocks nInodes d) : blocksFor nInodes 256 = 1 := by
  have pos := g.someInode
  have small := g.oneTableBlock
  rw [tableBlocks_small (by omega)]
  omega

theorem Geometry.uint8_table (g : Geometry blocks nInodes d) :
    (uint8 (1 + blocksFor nInodes 32768 + d)).toNat = 2 + d := by
  have byte := g.fitsByte
  have wrap := uint8_toNat (1 + 1 + d)
  rw [g.blocksFor_bitmap]
  omega

theorem Geometry.uint8_data (g : Geometry blocks nInodes d) :
    (uint8 (1 + blocksFor nInodes 32768 + d + blocksFor nInodes 256)).toNat = 3 + d := by
  have byte := g.fitsByte
  have wrap := uint8_toNat (1 + 1 + d + 1)
  rw [g.blocksFor_bitmap, g.blocksFor_table]
  omega

variable (now) in
theorem Geometry.mounted_superblock (g : Geometry blocks nInodes d) (bound : 4096 * blocks < 2 ^ 64)
    (left : blocksLeft blocks nInodes - d = blocks - (3 + d)) :
    A1fsSuperblock.read (formattedImage blocks nInodes now d) =
      (formatted blocks nInodes d now).sb := by
  have table := g.uint8_table
  have data := g.uint8_data
  have bitmap : (uint8 (1 + 1)).toNat = 2 := by decide
  have inodes : (BitVec.ofNat 64 nInodes).toInt = nInodes := by
    have small := g.oneTableBlock
    rw [toInt_inodes (by omega), if_pos (by omega)]
  have freeInodes : (BitVec.ofInt 64 ((nInodes : Int) - 1)).toInt = (nInodes - 1 : Nat) := by
    have small := g.oneTableBlock
    have pos := g.someInode
    rw [BitVec.toInt_ofInt, Int.bmod_def]
    split <;> omega
  have freeBlocks : (BitVec.ofInt 64 ((blocks : Int) - (3 + d))).toInt = (blocks - (3 + d) : Nat) := by
    have some := g.someData
    rw [BitVec.toInt_ofInt, Int.bmod_def]
    split <;> omega
  have total : (BitVec.ofInt 8 ((blocks : Int) - (3 + d : Nat))).toNat = (blocks - (3 + d)) % 256 := by
    have some := g.someData
    rw [BitVec.toNat_ofInt]
    omega
  rw [formattedImage_superblock _ _ (by omega), formattedSuperblock]
  rw [g.blocksFor_bitmap] at table data
  simp only [g.blocksFor_bitmap, table, data, left, inodes, freeInodes, freeBlocks, total, bitmap,
    BitVec.toNat_ofNat, Nat.mod_eq_of_lt bound, formatted]

variable (now) in
theorem Geometry.formattedImage_zero (g : Geometry blocks nInodes d) {a : Nat} (beyond : 64 ≤ a)
    (unmarked : a ≠ 4096) (outside : a < 4096 * (2 + d) ∨ 4096 * (2 + d) + 188 ≤ a) :
    formattedImage blocks nInodes now d a = 0#8 := by
  have mark : markRoot (layOut (fun _ => 0) nInodes (blocksFor nInodes 32768) d
      (blocksFor nInodes 256)) nInodes a = 0#8 := by
    rw [markRoot, set64_outside _ (by simp only [offFreeInodesCount]; omega), if_neg unmarked]
    exact layOut_beyond beyond
  rw [formattedImage, fillSuperblock_beyond beyond, g.uint8_table, writeRoot_outside outside, mark]

variable (now) in
theorem Geometry.formattedImage_mark (g : Geometry blocks nInodes d) :
    formattedImage blocks nInodes now d 4096 = 1#8 := by
  have bitmap := g.someBitmap
  rw [formattedImage, fillSuperblock_beyond (by omega), g.uint8_table,
    writeRoot_outside (by omega), markRoot,
    set64_outside _ (by simp only [offFreeInodesCount]; omega), if_pos rfl]

variable (now) in
theorem Geometry.formattedImage_root (g : Geometry blocks nInodes d) :
    A1fsInode.read (formattedImage blocks nInodes now d) (4096 * (2 + d)) = rootInode now := by
  rw [formattedImage, g.uint8_table]
  set blank := markRoot (layOut (fun _ => 0) nInodes (blocksFor nInodes 32768) d
    (blocksFor nInodes 256)) nInodes with blankDef
  have filled : A1fsInode.read (fillSuperblock (writeRoot blank (4096 * (2 + d)) now) (4096 * blocks)
      (blocksLeft blocks nInodes - d)) (4096 * (2 + d)) =
      A1fsInode.read (writeRoot blank (4096 * (2 + d)) now) (4096 * (2 + d)) :=
    inode_congr fun i bound => fillSuperblock_beyond (by omega)
  rw [filled]
  refine read_writeRoot fun i bound => ?_
  have bitmap := g.someBitmap
  rw [blankDef, markRoot, set64_outside _ (by simp only [offFreeInodesCount]; omega),
    if_neg (by omega)]
  exact layOut_beyond (by omega)

theorem Geometry.mount (g : Geometry blocks nInodes d) (bound : 4096 * blocks < 2 ^ 64)
    (left : blocksLeft blocks nInodes - d = blocks - (3 + d)) :
    (fsCtxInit (formattedImage blocks nInodes now d) (4096 * blocks)).1 =
      formatted blocks nInodes d now := by
  have small := g.oneTableBlock
  have some := g.someBitmap
  have shape := g.mounted_superblock now bound left
  have mark := g.formattedImage_mark now
  have root := g.formattedImage_root now
  have zero := fun {a : Nat} => g.formattedImage_zero now (a := a)
  rw [fsCtxInit, shape]
  rw [formatted, FsCtx.mk.injEq, Bitmap.mk.injEq, Bitmap.mk.injEq]
  refine ⟨rfl, rfl, ⟨?_, ?_⟩, ⟨?_, ?_⟩, ?_, ?_⟩ <;> dsimp only
  · funext k
    by_cases first : k = 0
    · subst first
      simpa using mark
    · rw [if_neg first]
      split
      · exact zero (by omega) (by omega) (by omega)
      · rfl
  · omega
  · funext k
    split
    · exact zero (by omega) (by omega) (by omega)
    · rfl
  · funext i
    by_cases first : i = 0
    · subst first
      rw [if_pos (by have := g.someInode; omega), if_pos rfl]
      exact root
    · rw [if_neg first]
      split
      · exact inode_congr fun j bound => zero (by omega) (by omega) (by omega)
      · rfl
  · funext k
    split
    · exact zero (by omega) (by omega) (by omega)
    · rfl

theorem Geometry.disjoint (g : Geometry blocks nInodes d) :
    RegionsDisjoint (formatted blocks nInodes d now).sb (4096 * blocks) nInodes := by
  have quotient : 4096 * blocks / 4096 = blocks := by omega
  obtain ⟨_, _, _, _, _, _⟩ := g
  simp only [RegionsDisjoint, regions, formatted, List.mem_cons, List.not_mem_nil, or_false,
    forall_eq_or_imp, forall_eq, List.pairwise_cons, List.Pairwise.nil, and_true, quotient,
    IsEmpty.forall_iff, implies_true]
  omega

end Mounted

theorem InitialAt.shape {now : Timespec} {fs : FsCtx} (start : InitialAt now fs) :
    ∃ blocks nInodes d, Geometry blocks nInodes d ∧ fs = formatted blocks nInodes d now := by
  obtain ⟨blocks, nInodes, image, -, bound, pos, inodeBound, made, disjoint, rfl⟩ := start
  obtain ⟨k, sizing, -, room, -, -, rfl⟩ := mkfs_some pos inodeBound made
  obtain ⟨d, rfl, g, left⟩ := geometry_of_disjoint pos sizing room disjoint
  exact ⟨blocks, nInodes, d, g, g.mount bound left⟩

theorem Initial.shape {fs : FsCtx} (start : Initial fs) :
    ∃ blocks nInodes d now, Geometry blocks nInodes d ∧ fs = formatted blocks nInodes d now := by
  obtain ⟨now, start⟩ := start
  obtain ⟨blocks, nInodes, d, g, shape⟩ := start.shape
  exact ⟨blocks, nInodes, d, now, g, shape⟩

/-- A device of 16 blocks with 16 inodes, formatted at time 0. -/
def device : FsCtx := formatted 16 16 1 ⟨0, 0⟩

theorem formatted_initial {blocks nInodes : Nat} {now : Timespec} (g : Geometry blocks nInodes 1)
    (left : blocksLeft blocks nInodes = blocks - 3) (few : blocks ≤ 32768)
    (returns : ∃ image, mkfs (fun _ => 0) (4096 * blocks) nInodes now = .ok (some image)) :
    InitialAt now (formatted blocks nInodes 1 now) := by
  obtain ⟨image, made⟩ := returns
  have pos := g.someInode
  have table := g.oneTableBlock
  have some := g.someData
  obtain ⟨k, sizing, -, room, -, -, rfl⟩ := mkfs_some pos (by omega) made
  rw [left] at sizing
  obtain rfl : 1 = k := by
    rw [sizeBitmap_small (by omega) (by omega)] at sizing
    exact Except.ok.inj sizing
  have exact_ : blocksLeft blocks nInodes - (1 : Nat) = blocks - (3 + (1 : Nat)) := by
    rw [left]
    omega
  have shape := g.mounted_superblock now (by omega) exact_
  refine ⟨blocks, nInodes, _, by omega, by omega, pos, by omega, made, ?_, ?_⟩
  · change RegionsDisjoint (A1fsSuperblock.read (formattedImage blocks nInodes now (1 : Nat))) _ _
    rw [shape]
    exact g.disjoint
  · exact (g.mount (by omega) exact_).symm

theorem device_formats : ∃ image, mkfs (fun _ => 0) (4096 * 16) 16 ⟨0, 0⟩ = .ok (some image) := by
  decide +kernel

theorem device_initialAt : InitialAt ⟨0, 0⟩ device := by
  have g : Geometry 16 16 1 :=
    ⟨by decide, by decide, by decide, by decide, by decide, by decide⟩
  exact formatted_initial g (by decide) (by decide) device_formats

theorem device_initial : Initial device := ⟨_, device_initialAt⟩

def pathA : CString := ⟨[47#8, 97#8], by decide⟩
def pathB : CString := ⟨[47#8, 98#8], by decide⟩

def quiet : Env := ⟨⟨0, 0⟩, 0⟩

def regularMode : BitVec 32 := 0o100644#32

end ExtentFs
