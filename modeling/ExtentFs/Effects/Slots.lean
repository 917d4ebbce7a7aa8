import ExtentFs.Effects.Write

namespace ExtentFs

open Base

section Size

variable {fs fs' : FsCtx} {i k fuel : Nat} {leftover bytes r : Int} {now : Timespec}

theorem zeroOutBlocks_size {length j : Nat} {left left' : Int}
    (h : zeroOutBlocks i k leftover length fs j left = .ok (fs', left')) :
    (fs'.itable i).size = (fs.itable i).size := by
  induction length generalizing fs j left with
  | zero =>
    cases h
    rfl
  | succ length ih =>
    rw [zeroOutBlocks, bind_eq_ok] at h
    obtain ⟨addr, -, h⟩ := h
    split at h
    · simp only [bind_eq_ok, clearBytes_ok] at h
      obtain ⟨_, ⟨-, rfl⟩, h⟩ := h
      cases h
      rw [FsCtx.setInode_self]
      rfl
    · simp only [bind_eq_ok, clearBytes_ok] at h
      obtain ⟨_, ⟨-, rfl⟩, h⟩ := h
      rw [ih h, FsCtx.setInode_self]
      rfl

theorem zeroExtents_size {firstExtent firstDb : Nat} {l : List Nat} {left : Int}
    (h : zeroExtents i leftover firstExtent firstDb l fs left = .ok fs') :
    (fs'.itable i).size = (fs.itable i).size := by
  induction l generalizing fs left with
  | nil =>
    cases h
    rfl
  | cons k l ih =>
    rw [zeroExtents] at h
    split at h
    · cases h
      rfl
    · simp only [bind_eq_ok] at h
      obtain ⟨extent, -, ⟨zeroed, left'⟩, zero, h⟩ := h
      rw [ih h, FsCtx.setInode_self]
      exact zeroOutBlocks_size zero

theorem Growth.size {n start : Nat} {inode : A1fsInode} (growth : Growth fs i n now start inode) :
    inode.size = (fs.itable i).size := by
  cases growth with
  | append => rfl
  | attach => rfl

theorem truncateHelper_size (h : truncateHelper fuel fs i bytes now = .ok (fs', r))
    (range : (fs.sb.sbFirstEmptyDb : Int) ≤ fs.sb.maxIndex) :
    (fs'.itable i).size = (fs.itable i).size := by
  rw [truncateHelper, bind_eq_ok] at h
  obtain ⟨⟨blocks, leftover⟩, -, h⟩ := h
  rw [bind_eq_ok] at h
  obtain ⟨⟨made, count⟩, make, h⟩ := h
  obtain ⟨rfl, n, rfl, start, inode, growth, -, rfl⟩ := makeDataBlocks_ok range make
  simp only [ne_eq, not_true_eq_false, if_false, bind_eq_ok] at h
  obtain ⟨⟨firstExtent, firstDb⟩, -, zeroed, zero, h⟩ := h
  cases h
  rw [touch, FsCtx.setInode_self]
  dsimp only
  rw [zeroExtents_size zero, touch, FsCtx.setInode_self, FsCtx.flipBlocks_itable, FsCtx.setInode_self]
  exact growth.size

end Size

section Counts

variable {inode inode' : A1fsInode} {fs fs' : FsCtx} {i n start : Nat} {now : Timespec}

def A1fsInode.blockCount (inode : A1fsInode) : Nat :=
  (inode.usedSlots.map fun k => (inode.iExtent k).count).sum

theorem A1fsInode.blocks_length : inode.blocks.length = inode.blockCount := by
  rw [A1fsInode.blocks, List.length_flatMap, A1fsInode.blockCount]
  congr 1
  refine List.map_congr_left fun k _ => ?_
  rw [A1fsExtent.blocks, List.length_range']

theorem A1fsInode.SameExtents.blockCount (same : inode.SameExtents inode') :
    inode'.blockCount = inode.blockCount := by
  rw [← A1fsInode.blocks_length, ← A1fsInode.blocks_length, same.blocks]

theorem Growth.blockCount (growth : Growth fs i n now start inode) :
    inode.blockCount = (fs.itable i).blockCount + n := by
  rw [← A1fsInode.blocks_length, growth.blocks, List.length_append, List.length_range',
    A1fsInode.blocks_length]

def A1fsInode.Counted (inode : A1fsInode) : Prop :=
  ∀ k ∈ inode.usedSlots, 0 < (inode.iExtent k).count

theorem A1fsInode.SameExtents.counted (same : inode.SameExtents inode') (counted : inode.Counted) :
    inode'.Counted := by
  intro k slot
  rw [same.usedSlots] at slot
  rw [same.count]
  exact counted k slot

theorem Growth.counted (growth : Growth fs i n now start inode) (some : 0 < n)
    (counted : (fs.itable i).Counted) : inode.Counted := by
  have last := growth.last_count some
  intro k slot
  rw [A1fsInode.mem_usedSlots] at slot
  by_cases at_last : k = inode.lastUsedExtent.toNat
  · rwa [at_last]
  · cases growth with
    | append _ _ low =>
      have used : (k : Int) ≤ (fs.itable i).lastUsedExtent + 1 := slot
      have differ : k ≠ ((fs.itable i).lastUsedExtent + 1).toNat := at_last
      have before : ((fs.itable i).appendExtent ⟨start, n, 0⟩ now).iExtent k =
          (fs.itable i).iExtent k := A1fsInode.setExtent_other differ
      rw [before]
      exact counted k (A1fsInode.mem_usedSlots.mpr (by omega))
    | attach =>
      have used : (k : Int) ≤ (fs.itable i).lastUsedExtent := slot
      have differ : k ≠ (fs.itable i).lastUsedExtent.toNat := at_last
      have before : ((fs.itable i).extendLast n now).iExtent k = (fs.itable i).iExtent k :=
        A1fsInode.setExtent_other differ
      rw [before]
      exact counted k (A1fsInode.mem_usedSlots.mpr used)

end Counts

/-- The number of blocks is the one that the size needs. -/
structure A1fsInode.Filled (inode : A1fsInode) : Prop where
  fits : inode.size < 2 ^ 31
  counted : inode.Counted
  total : inode.blockCount = (inode.size + 4095) / 4096

/-- A new size that keeps the number of blocks right: a file with blocks does not grow from a full
    last block, nor to less than what its last block lacks, and a shrinking file gives up all its
    blocks or none. -/
structure A1fsInode.Fills (inode : A1fsInode) (size : Int) : Prop where
  low : 0 ≤ size
  high : size < 2 ^ 31
  grows : inode.size < size → inode.lastUsedExtent ≠ -1 →
    inode.size % 4096 ≠ 0 ∧ 4096 ≤ size + (inode.size % 4096 : Nat)
  shrinks : size < inode.size → size = 0 ∨ (size + 4095) / 4096 = ((inode.size : Int) + 4095) / 4096

instance (inode : A1fsInode) (size : Int) : Decidable (inode.Fills size) :=
  decidable_of_iff (0 ≤ size ∧ size < 2 ^ 31 ∧
    (inode.size < size → inode.lastUsedExtent ≠ -1 →
      inode.size % 4096 ≠ 0 ∧ 4096 ≤ size + (inode.size % 4096 : Nat)) ∧
    (size < inode.size → size = 0 ∨ (size + 4095) / 4096 = ((inode.size : Int) + 4095) / 4096))
    ⟨fun ⟨a, b, c, d⟩ => ⟨a, b, c, d⟩, fun ⟨a, b, c, d⟩ => ⟨a, b, c, d⟩⟩

section Fill

variable {fs fs' : FsCtx} {i fuel bytes : Nat} {size r : Int} {now : Timespec} {env : Env}

theorem A1fsInode.blockCount_of_empty {inode : A1fsInode} (unused : inode.lastUsedExtent = -1) :
    inode.blockCount = 0 := by
  rw [← A1fsInode.blocks_length, A1fsInode.blocks_of_empty unused, List.length_nil]

theorem A1fsInode.Filled.of_empty {inode : A1fsInode} (unused : inode.lastUsedExtent = -1)
    (zero : inode.size = 0) : inode.Filled := by
  refine ⟨by omega, fun k slot => ?_, ?_⟩
  · rw [A1fsInode.mem_usedSlots] at slot
    omega
  · rw [A1fsInode.blockCount_of_empty unused]
    omega

theorem truncateHelper_counts (data : Bytes) (some : 0 < bytes) (bound : bytes < 2 ^ 31)
    (range : (fs.sb.sbFirstEmptyDb : Int) ≤ fs.sb.maxIndex) (counted : (fs.itable i).Counted)
    (h : truncateHelper fuel { fs with data := data } i bytes now = .ok (fs', r)) :
    r = 0 ∧ (fs'.itable i).size = (fs.itable i).size ∧ (fs'.itable i).Counted ∧
      (fs'.itable i).blockCount = (fs.itable i).blockCount + (bytes + 4095) / 4096 := by
  have kept := truncateHelper_size h range
  obtain ⟨rfl, n, leftover, start, inode, request, growth, -, touches⟩ := truncateHelper_ok h range
  rw [blockRequest_nat bound, Except.ok.injEq, Prod.mk.injEq] at request
  have same := touches.inode
  rw [FsCtx.flipBlocks_itable, FsCtx.setInode_self] at same
  refine ⟨rfl, kept, same.counted (growth.counted (by omega) counted), ?_⟩
  rw [same.blockCount, growth.blockCount]
  dsimp only
  omega

theorem toUlong_nat {n : Nat} (bound : n < 2 ^ 31) : toUlong n = n := by
  rw [toUlong]
  omega

theorem extendFile_filled {size : Nat} (range : (fs.sb.sbFirstEmptyDb : Int) ≤ fs.sb.maxIndex)
    (filled : (fs.itable i).Filled) (small : size < 2 ^ 31) (larger : (fs.itable i).size < size)
    (open_ : (fs.itable i).size % 4096 ≠ 0) (enough : 4096 ≤ size + (fs.itable i).size % 4096)
    (h : extendFile env fuel fs i size = .ok (fs', r)) : (fs'.itable i).Filled := by
  have leftover := A1fsInode.leftover_nat filled.fits
  have total := filled.total
  have difference : toInt ((size : Int) - (fs.itable i).size) = (size : Int) - (fs.itable i).size :=
    toInt_of_fits (by omega) (by omega)
  cases extendFile_cases range h with
  | short below help => omega
  | @long made last addr more data above index offset clear remaining nonzero help =>
    rw [difference, leftover] at remaining
    obtain ⟨bytes, rfl, some⟩ := truncateHelper_positive nonzero (by omega) help range
    obtain ⟨-, same, counted, count⟩ :=
      truncateHelper_counts data some (by omega) range filled.counted help
    rw [same, difference, grow_withSize (by rw [same]; omega) small, FsCtx.withSize, FsCtx.setInode_self]
    refine ⟨small, counted, ?_⟩
    change (made.itable i).blockCount = _
    rw [count]
    dsimp only
    omega
  | filled above index offset clear done =>
    rw [difference, leftover] at done
    rw [difference, grow_withSize (by dsimp only; omega) small, FsCtx.withSize, FsCtx.setInode_self]
    refine ⟨small, filled.counted, ?_⟩
    change (fs.itable i).blockCount = _
    dsimp only
    omega
  | stuck even => exact filled

theorem a1fsTruncate_filled {path : CString} (range : (fs.sb.sbFirstEmptyDb : Int) ≤ fs.sb.maxIndex)
    (walk : getInodeNum fs path 0 = .ok (i : Int)) (filled : (fs.itable i).Filled)
    (fills : (fs.itable i).Fills size) (h : a1fsTruncate env fuel fs path size = .ok (fs', r)) :
    (fs'.itable i).Filled := by
  obtain ⟨low, high, grows, shrinks⟩ := fills
  obtain ⟨size, rfl⟩ : ∃ n : Nat, size = n := ⟨size.toNat, by omega⟩
  have small : size < 2 ^ 31 := by omega
  have total := filled.total
  obtain ⟨j, walk', -, truncates⟩ := a1fsTruncate_cases range h
  rw [walk] at walk'
  cases walk'
  have current := toInt_size filled.fits
  cases truncates with
  | same equal => exact filled
  | @first made differ unused help =>
    have zero := A1fsInode.blockCount_of_empty unused
    obtain ⟨-, same, counted, count⟩ :=
      truncateHelper_counts fs.data (by omega) small range filled.counted help
    rw [FsCtx.setInode_self, toUlong_nat small]
    refine ⟨small, counted, ?_⟩
    change (made.itable i).blockCount = _
    rw [count, zero]
    dsimp only
    omega
  | larger used larger extend =>
    obtain ⟨open_, enough⟩ := grows (by omega) used
    exact extendFile_filled range filled small (by omega) open_ (by omega) extend
  | smaller used smaller bits =>
    rw [shrunk_itable]
    have size' : (shrunkInode (fs.itable i) size).size = size := shrunk_size small
    by_cases zero : (size : Int) = 0
    · exact .of_empty (by rw [zero, shrunk_unused]) (by omega)
    · have kept : (fs.itable i).SameExtents (shrunkInode (fs.itable i) size) := shrunk_sameExtents zero
      have rest := shrinks (by omega)
      refine ⟨by omega, kept.counted filled.counted, ?_⟩
      rw [kept.blockCount, size']
      omega

end Fill

end ExtentFs
