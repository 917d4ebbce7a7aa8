import ExtentFs.Effects.Resize
import ExtentFs.Guarantees.Allocation
import ExtentFs.Guarantees.Search

namespace ExtentFs

open Base Base.Bytes

/-- What the first growth of file `i` to `bytes` bytes does: it gets the blocks `b` to `b + n - 1`, whose first
    `bytes` bytes are zeroed, and nothing else changes. -/
structure GetsRun (fs fs' : FsCtx) (i bytes b n : Nat) : Prop where
  size : (fs'.itable i).size = bytes
  single : (fs'.itable i).lastUsedExtent = 0
  extent : ((fs'.itable i).iExtent 0).start = b ∧ ((fs'.itable i).iExtent 0).count = n
  bits : ∀ j, fs'.blockBits.test j = if b ≤ j ∧ j < b + n then true else fs.blockBits.test j
  sb : fs'.sb = { fs.sb with sbFreeBlocksCount := fs.sb.sbFreeBlocksCount - n }
  zeroed : ∀ x < bytes, fs'.data (4096 * b + x) = 0
  others : ∀ x, x < 4096 * b ∨ 4096 * (b + n) ≤ x → fs'.data x = fs.data x
  inodeBits : fs'.inodeBits = fs.inodeBits
  inodes : ∀ j, j ≠ i → fs'.itable j = fs.itable j

section Growth

variable {fs : FsCtx} {env : Env} {fuel i size b : Nat}

theorem truncateHelper_first (unused : (fs.itable i).lastUsedExtent = -1) (some : 0 < size) (small : size < 2 ^ 31)
    (found : getAvailableBit fs.sb fs.blockBits .data ((size + 4095) / 4096 : Nat) = .ok (b : Int))
    (bits : ∀ j ∈ List.range' b ((size + 4095) / 4096), j / 8 < fs.blockBits.length)
    (reach : 4096 * (b + ((size + 4095) / 4096 - 1)) < 2 ^ 31) (inside : 4096 * b + size ≤ fs.dataSize) :
    truncateHelper (fuel + 1) fs i size env.now = .ok (fs.extended i b size fs.data env.now, 0) := by
  have blocks : 0 < (size + 4095) / 4096 := by omega
  have make : makeDataBlocks i env.now (fuel + 1) fs ((size + 4095) / 4096 : Nat) = .ok _ :=
    makeDataBlocks_append found (by omega) (by omega) (.inl unused) bits
  have bytes := zeroedBytes_nat some
  obtain ⟨filled, zero⟩ : ∃ filled, zeroOutBlocks i ((fs.itable i).lastUsedExtent + 1).toNat
      (size % 4096 : Nat) ((size + 4095) / 4096) ((fs.setInode i ((fs.itable i).appendExtent
        ⟨b, (size + 4095) / 4096, 0⟩ env.now)).flipBlocks (List.range' b ((size + 4095) / 4096)) 1) b
        ((size + 4095) / 4096 : Nat) = .ok (filled, 0) := by
    apply zeroOutBlocks_returns blocks (by omega) reach
    rw [bytes]
    exact inside
  rw [truncateHelper_placed (blockRequest_nat small) blocks (by omega) (by omega) make zero, bytes]
  rfl

theorem extended_getsRun (unused : (fs.itable i).lastUsedExtent = -1)
    (clear : ClearRun fs.blockBits b ((size + 4095) / 4096)) :
    GetsRun fs ((fs.extended i b size fs.data env.now).withSize i size) i size b ((size + 4095) / 4096) := by
  have slot : ((fs.itable i).lastUsedExtent + 1).toNat = 0 := by omega
  have inode : ((fs.extended i b size fs.data env.now).withSize i size).itable i = _ := extended_itable
  have extent : ∀ extent : A1fsExtent, ((fs.itable i).appendExtent extent env.now).iExtent 0 = extent := by
    intro extent
    rw [A1fsInode.appendExtent, slot]
    show ((fs.itable i).setExtent 0 extent).iExtent 0 = extent
    exact A1fsInode.setExtent_self
  constructor
  · rw [inode]
  · rw [inode]
    show (fs.itable i).lastUsedExtent + 1 = 0
    omega
  · rw [inode]
    show (((fs.itable i).appendExtent _ env.now).iExtent 0).start = b ∧
      (((fs.itable i).appendExtent _ env.now).iExtent 0).count = _
    rw [extent]
    exact ⟨rfl, rfl⟩
  · intro j
    show (fs.blockBits.flipAll (List.range' b ((size + 4095) / 4096))).test j = _
    rw [Bitmap.test_flipAll List.nodup_range']
    by_cases mine : b ≤ j ∧ j < b + (size + 4095) / 4096
    · have member : j ∈ List.range' b ((size + 4095) / 4096) := List.mem_range'_1.mpr mine
      rw [if_pos mine, clearRun_iff.mp clear j mine.1 mine.2, decide_eq_true member]
      rfl
    · have absent : j ∉ List.range' b ((size + 4095) / 4096) := fun member => mine (List.mem_range'_1.mp member)
      rw [if_neg mine, decide_eq_false absent, Bool.xor_false]
  · have total : countFlips 1 fs.sb.sbFreeBlocksCount (List.range' b ((size + 4095) / 4096)).length =
        fs.sb.sbFreeBlocksCount - ((size + 4095) / 4096 : Nat) := by
      rw [List.length_range']
      rfl
    rw [← total]
    rfl
  · intro x below
    show fs.data.fill (4096 * b) size 0 (4096 * b + x) = 0
    exact fill_inside (by omega) (by omega)
  · intro x outside
    show fs.data.fill (4096 * b) size 0 x = fs.data x
    exact fill_outside (by omega)
  · rfl
  · intro j differ
    show ((fs.setInode i _).setInode i _).itable j = fs.itable j
    rw [FsCtx.setInode_setInode]
    exact FsCtx.setInode_other differ

end Growth

/-- An empty file that grows gets the run that the search has found for it. -/
theorem first_growth {fs : FsCtx} {path : CString} {env : Env} {i size b : Nat} (image : fs.size < 2 ^ 31)
    (covered : fs.dataBlocks ≤ 8 * fs.blockBits.length)
    (walk : getInodeNum fs path 0 = .ok (i : Int)) (exists_ : (i : Int) < fs.sb.sbInodesCount)
    (empty : (fs.itable i).size = 0) (unused : (fs.itable i).lastUsedExtent = -1)
    (some : 0 < size) (small : size < 2 ^ 31)
    (found : getAvailableBit fs.sb fs.blockBits .data ((size + 4095) / 4096 : Nat) = .ok (b : Int))
    (clear : ClearRun fs.blockBits b ((size + 4095) / 4096))
    (inside : b + (size + 4095) / 4096 ≤ fs.dataBlocks) :
    ∃ fs', (∀ fuel, a1fsTruncate env (fuel + 1) fs path size = .ok (fs', 0)) ∧
      GetsRun fs fs' i size b ((size + 4095) / 4096) := by
  refine ⟨(fs.extended i b size fs.data env.now).withSize i size, fun fuel => ?_, extended_getsRun unused clear⟩
  have room : 4096 * fs.dataBlocks ≤ fs.dataSize := Nat.mul_div_le _ _
  have whole : fs.dataSize ≤ fs.size := Nat.sub_le _ _
  have bits : ∀ j ∈ List.range' b ((size + 4095) / 4096), j / 8 < fs.blockBits.length := by
    intro j member
    rw [List.mem_range'_1] at member
    omega
  have read : fs.inodeAt i = .ok (fs.itable i) := inodeAt_ok.mpr ⟨⟨by omega, exists_⟩, rfl⟩
  have zero : toInt ((0 : Nat) : Int) = 0 := toInt_of_fits (by omega) (by omega)
  have differ : ¬ (0 : Int) = size := by omega
  have exact_ : toUlong (size : Int) = size := by
    rw [toUlong]
    omega
  rw [a1fsTruncate, walk, ok_bind, read, ok_bind]
  simp only [Int.toNat_natCast, empty, zero, if_neg differ, unused, if_true,
    truncateHelper_first unused some small found bits (by omega) (by omega), ok_bind, exact_]
  rfl

/-- The file of a device with one empty file grows into its second block. -/
theorem first_growth_run : ∃ fs ∈ oneFileRun, ∃ fs',
    (∀ fuel, a1fsTruncate quiet (fuel + 1) fs pathA 5000 = .ok (fs', 0)) ∧ GetsRun fs fs' 1 5000 1 2 := by
  have ready : ∃ fs ∈ oneFileRun, fs.size < 2 ^ 31 ∧ fs.dataBlocks ≤ 8 * fs.blockBits.length ∧
      getInodeNum fs pathA 0 = .ok 1 ∧ (1 : Int) < fs.sb.sbInodesCount ∧ (fs.itable 1).size = 0 ∧
      (fs.itable 1).lastUsedExtent = -1 ∧
      getAvailableBit fs.sb fs.blockBits .data (2 : Nat) = .ok (1 : Nat) ∧
      ClearRun fs.blockBits 1 2 ∧ 1 + 2 ≤ fs.dataBlocks := by
    decide +kernel
  obtain ⟨fs, run, image, covered, walk, exists_, empty, unused, found, clear, inside⟩ := ready
  exact ⟨fs, run, first_growth image covered walk exists_ empty unused (by decide) (by decide) found clear inside⟩

end ExtentFs
