import ExtentFs.Base.Frames
import ExtentFs.Effects.Directory
import ExtentFs.Effects.Truncate

namespace ExtentFs

open Base Base.Bytes

def A1fsInode.lastBlock (inode : A1fsInode) : Nat := inode.blockAfter - 1

def FsCtx.clearTail (fs : FsCtx) (inode : A1fsInode) : Bytes :=
  fs.data.fill (4096 * inode.lastBlock + inode.size % 4096) (4096 - inode.size % 4096) 0

/-- A file that gets an extent of its own for a number of bytes, which are zeroed. -/
def FsCtx.extended (fs : FsCtx) (i start bytes : Nat) (data : Bytes) (now : Timespec) : FsCtx :=
  { (fs.setInode i ((fs.itable i).appendExtent ⟨start, (bytes + 4095) / 4096,
        zeroedSize ((bytes + 4095) / 4096) (bytes % 4096 : Nat) + (bytes % 4096 : Nat)⟩
        now)).flipBlocks (List.range' start ((bytes + 4095) / 4096)) 1 with
    data := data.fill (4096 * start) bytes 0 }

def FsCtx.withSize (fs : FsCtx) (i size : Nat) : FsCtx :=
  fs.setInode i { fs.itable i with size := size }

/-- The bytes for which `a1fs_truncate` gets blocks, and whether it fills the last block first.
    A file that stays below a block gets blocks for its whole new size. -/
inductive Asks (inode : A1fsInode) (size : Nat) : (bytes : Nat) → (tail : Bool) → Prop
  | first (unused : inode.lastUsedExtent = -1) : Asks inode size size false
  | short (used : inode.lastUsedExtent ≠ -1) (larger : inode.size < size)
      (below : size + inode.size % 4096 < 4096) : Asks inode size size false
  | long {bytes : Nat} (used : inode.lastUsedExtent ≠ -1)
      (total : size = inode.size + (4096 - inode.size % 4096) + bytes) : Asks inode size bytes true

/-- What `a1fs_truncate` does to a file that does not extend its last extent. -/
inductive Truncated (fs : FsCtx) (i size : Nat) (now : Timespec) (fs' : FsCtx) (r : Int) : Prop
  | same (code : r = 0) (equal : (fs.itable i).size = size) (result : fs' = fs)
  | stuck (code : r = -1) (used : (fs.itable i).lastUsedExtent ≠ -1) (larger : (fs.itable i).size < size)
      (full : size + (fs.itable i).size % 4096 = 4096) (result : fs' = fs)
  | filled (code : r = 0) (used : (fs.itable i).lastUsedExtent ≠ -1)
      (full : size = (fs.itable i).size + (4096 - (fs.itable i).size % 4096))
      (result : fs' = ({ fs with data := fs.clearTail (fs.itable i) } : FsCtx).withSize i size)
  | grown {start bytes : Nat} {tail : Bool} (code : r = 0) (asks : Asks (fs.itable i) size bytes tail)
      (some : 0 < bytes)
      (found : getAvailableBit fs.sb fs.blockBits .data ((bytes + 4095) / 4096 : Nat) = .ok (start : Int))
      (low : -1 ≤ (fs.itable i).lastUsedExtent) (room : (fs.itable i).lastUsedExtent < 11)
      (reach : 4096 * (start + ((bytes + 4095) / 4096 - 1)) < 2 ^ 31)
      (inside : 4096 * start + bytes ≤ fs.dataSize)
      (result : fs' = (fs.extended i start bytes
        (if tail = true then fs.clearTail (fs.itable i) else fs.data) now).withSize i size)
  | shrunk (code : r = 0) (used : (fs.itable i).lastUsedExtent ≠ -1)
      (smaller : size < (fs.itable i).size)
      (result : fs' = (fs.setInode i (shrunkInode (fs.itable i) size)).flipBlocks
        (releasedBlocks (fs.itable i) size) 0)

section Request

variable {bytes n leftover : Int}

theorem blockRequest_nat {bytes : Nat} (bound : bytes < 2 ^ 31) : blockRequest bytes =
    .ok (((bytes + 4095) / 4096 : Nat), (bytes % 4096 : Nat)) := by
  have quotient : (bytes : Int).tdiv 4096 = (bytes / 4096 : Nat) :=
    (Int.ofNat_tdiv bytes 4096).symm
  have whole : toInt ((bytes / 4096 : Nat) : Int) = (bytes / 4096 : Nat) :=
    toInt_of_fits (by omega) (by omega)
  have rest : toInt ((bytes : Int) - (bytes / 4096 : Nat) * 4096) = (bytes % 4096 : Nat) := by
    rw [toInt_of_fits] <;> omega
  rw [blockRequest, quotient, whole, intArith_ok.mpr ⟨⟨by omega, by omega⟩, rfl⟩, ok_bind, rest]
  dsimp only
  rw [pure_eq_ok, Prod.mk.injEq]
  refine ⟨?_, rfl⟩
  split <;> omega

/-- A negative number of bytes asks for one block and a negative rest. -/
theorem blockRequest_negative {bytes : Nat} (some : 0 < bytes) (bound : bytes < 4096) :
    blockRequest (-bytes) = .ok (1, -bytes) := by
  have quotient : (-(bytes : Int)).tdiv 4096 = 0 := by
    rw [Int.neg_tdiv, Int.tdiv_eq_zero_of_lt (by omega) (by omega)]
    rfl
  have zero : toInt 0 = 0 := toInt_of_fits (by omega) (by omega)
  have rest : toInt (-(bytes : Int) - 0 * 4096) = -bytes := by
    rw [toInt_of_fits] <;> omega
  rw [blockRequest, quotient, zero, intArith_ok.mpr ⟨⟨by omega, by omega⟩, rfl⟩, ok_bind, rest]
  dsimp only
  rw [pure_eq_ok, Prod.mk.injEq, if_pos (by omega)]
  exact ⟨rfl, rfl⟩

theorem zeroedBytes_nat {bytes : Nat} (some : 0 < bytes) :
    zeroedBytes ((bytes + 4095) / 4096) (bytes % 4096 : Nat) = bytes := by
  rw [zeroedBytes]
  split <;> omega

end Request

section Helper

variable {fs fs' : FsCtx} {i fuel bytes : Nat} {data : Bytes} {r : Int} {now : Timespec}

theorem truncateHelper_extended (some : 0 < bytes) (bound : bytes < 2 ^ 31)
    (h : truncateHelper fuel { fs with data := data } i bytes now = .ok (fs', r))
    (range : (fs.sb.sbFirstEmptyDb : Int) ≤ fs.sb.maxIndex)
    (fresh : fs.attaches i ((bytes + 4095) / 4096) = false) :
    r = 0 ∧ ∃ start : Nat,
      getAvailableBit fs.sb fs.blockBits .data ((bytes + 4095) / 4096 : Nat) = .ok (start : Int) ∧
      -1 ≤ (fs.itable i).lastUsedExtent ∧ (fs.itable i).lastUsedExtent < 11 ∧
      4096 * (start + ((bytes + 4095) / 4096 - 1)) < 2 ^ 31 ∧ 4096 * start + bytes ≤ fs.dataSize ∧
      fs' = fs.extended i start bytes data now := by
  obtain ⟨rfl, start, found, low, room, -, -, reach, inside, rfl⟩ :=
    truncateHelper_append h range (blockRequest_nat bound) (by omega) fresh
  rw [zeroedBytes_nat some] at inside
  rw [zeroedBytes_nat some]
  exact ⟨rfl, start, found, low, room, reach, inside, rfl⟩

/-- A negative number of bytes makes the zeroing run out of the image. -/
theorem truncateHelper_negative (some : 0 < bytes) (bound : bytes < 4096)
    (range : (fs.sb.sbFirstEmptyDb : Int) ≤ fs.sb.maxIndex) :
    truncateHelper fuel fs i (-bytes) now ≠ .ok (fs', r) := by
  intro h
  rw [truncateHelper, blockRequest_negative some bound, ok_bind, bind_eq_ok] at h
  obtain ⟨⟨made, count⟩, make, h⟩ := h
  obtain ⟨rfl, n, one, start, inode, growth, -, rfl⟩ := makeDataBlocks_ok range make
  obtain rfl : n = 1 := by omega
  obtain ⟨low, high⟩ := growth.last
  obtain ⟨c, last⟩ : ∃ c, (inode.iExtent inode.lastUsedExtent.toNat).count = c + 1 :=
    Nat.exists_eq_add_one.mpr (growth.last_count (by omega))
  have touched : touch ((fs.setInode i inode).flipBlocks (List.range' start 1) 1) i now =
      (fs.setInode i { inode with iMtime := now }).flipBlocks (List.range' start 1) 1 := by
    rw [touch, FsCtx.setInode_flipBlocks, FsCtx.flipBlocks_itable, FsCtx.setInode_self]
  have extent : A1fsInode.extentAt { inode with iMtime := now } inode.lastUsedExtent.toNat =
      .ok (inode.iExtent inode.lastUsedExtent.toNat) := if_pos (by omega)
  have slots : (inode.lastUsedExtent + 1).toNat = inode.lastUsedExtent.toNat + 1 := by omega
  have search : firstToZero { inode with iMtime := now } (inode.lastUsedExtent.toNat + 1) 1 =
      .ok (inode.lastUsedExtent.toNat,
        ((inode.iExtent inode.lastUsedExtent.toNat).start + (c + 1 : Nat) - 1 : Int).toNat) := by
    rw [firstToZero, extent, ok_bind, last, if_pos (by omega)]
    rfl
  have left : inode.lastUsedExtent.toNat + 1 - inode.lastUsedExtent.toNat = 1 := by omega
  simp only [ne_eq, not_true_eq_false, if_false, touched, FsCtx.flipBlocks_itable,
    FsCtx.setInode_self] at h
  rw [slots, search, ok_bind, left, List.range'_one, zeroExtents, if_neg (by decide)] at h
  simp only [FsCtx.flipBlocks_itable, FsCtx.setInode_self, extent, ok_bind, last, zeroOutBlocks,
    bind_eq_ok] at h
  obtain ⟨_, ⟨_, ⟨addr, -, h⟩, -⟩, -⟩ := h
  rw [if_pos ⟨trivial, by omega⟩, bind_eq_ok] at h
  obtain ⟨_, clear, -⟩ := h
  have sign := (clearBytes_ok.mp clear).1
  omega

theorem truncateHelper_positive {more : Int} (nonzero : more ≠ 0) (bound : -4096 < more)
    (h : truncateHelper fuel fs i more now = .ok (fs', r))
    (range : (fs.sb.sbFirstEmptyDb : Int) ≤ fs.sb.maxIndex) : ∃ bytes : Nat, more = bytes ∧ 0 < bytes := by
  rcases Int.lt_or_gt_of_ne nonzero with negative | positive
  · obtain ⟨bytes, rfl⟩ : ∃ bytes : Nat, more = -bytes := ⟨more.natAbs, by omega⟩
    exact absurd h (truncateHelper_negative (by omega) (by omega) range)
  · exact ⟨more.toNat, by omega, by omega⟩

end Helper

section Exact

variable {fs fs' : FsCtx} {i fuel size bytes : Nat} {env : Env} {r : Int}

/-- What keeps the arithmetic of a file's size and of its blocks in range. -/
structure A1fsInode.Measured (inode : A1fsInode) : Prop where
  low : -1 ≤ inode.lastUsedExtent
  fits : inode.size < 2 ^ 31
  blank : inode.lastUsedExtent = -1 → inode.size = 0
  counted : ∀ k ∈ inode.usedSlots, 0 < (inode.iExtent k).count
  near : ∀ b ∈ inode.blocks, 4096 * b < 2 ^ 31

theorem A1fsInode.Measured.of_empty {inode : A1fsInode} (unused : inode.lastUsedExtent = -1)
    (zero : inode.size = 0) : inode.Measured := by
  refine ⟨by omega, by omega, fun _ => zero, fun k slot => ?_, fun b member => ?_⟩
  · rw [A1fsInode.mem_usedSlots] at slot
    omega
  · rw [A1fsInode.blocks_of_empty unused] at member
    cases member

theorem A1fsInode.Measured.lastBlock_mem {inode : A1fsInode} (measured : inode.Measured)
    (used : 0 ≤ inode.lastUsedExtent) :
    inode.lastBlock ∈ inode.blocks ∧ inode.blockAfter = inode.lastBlock + 1 := by
  have slot : inode.lastUsedExtent.toNat ∈ inode.usedSlots := by
    rw [A1fsInode.mem_usedSlots]
    omega
  have some := measured.counted _ slot
  refine ⟨A1fsInode.mem_blocks.mpr ⟨_, slot, A1fsExtent.mem_blocks.mpr ?_⟩, ?_⟩
  · rw [A1fsInode.lastBlock, A1fsInode.blockAfter]
    omega
  · rw [A1fsInode.lastBlock, A1fsInode.blockAfter]
    omega

theorem requestedBlocks_nat (bound : bytes < 2 ^ 31) :
    requestedBlocks bytes = (bytes + 4095) / 4096 := by
  rw [requestedBlocks, blockRequest_nat bound]
  exact Int.toNat_natCast _

theorem toInt_size (fits : size < 2 ^ 31) : toInt size = size := toInt_of_fits (by omega) (by omega)

theorem A1fsInode.leftover_nat {inode : A1fsInode} (fits : inode.size < 2 ^ 31) :
    inode.leftover = (inode.size % 4096 : Nat) := by
  rw [A1fsInode.leftover, toInt_size fits, Int.tdiv_eq_ediv_of_nonneg (by omega)]
  omega

theorem grow_withSize {bytes : Int} (total : ((fs.itable i).size : Int) + bytes = size)
    (bound : size < 2 ^ 31) : grow fs i bytes = fs.withSize i size := by
  have exact_ : toUlong (((fs.itable i).size : Int) + bytes) = size := by
    rw [total, toUlong]
    omega
  rw [grow, FsCtx.withSize, exact_]

theorem extended_size {start : Nat} {data : Bytes} {now : Timespec} :
    ((fs.extended i start bytes data now).itable i).size = (fs.itable i).size := by
  change ((fs.setInode i _).itable i).size = _
  rw [FsCtx.setInode_self]
  rfl

theorem lastDbIndex_ok {inode : A1fsInode} {last : Int} (used : 0 ≤ inode.lastUsedExtent)
    (measured : inode.Measured) (h : lastDbIndex inode = .ok last) : last = inode.lastBlock := by
  obtain ⟨mine, after⟩ := measured.lastBlock_mem used
  have near := measured.near _ mine
  rw [lastDbIndex, if_neg (by omega), bind_eq_ok] at h
  obtain ⟨extent, read, h⟩ := h
  obtain ⟨-, same⟩ := guard_eq_ok.mp read
  cases same
  rw [pure_eq_ok] at h
  rw [A1fsInode.blockAfter] at after
  rw [← h, toInt_of_fits] <;> omega

theorem Asks.helperSize {inode : A1fsInode} {tail : Bool} (asks : Asks inode size bytes tail)
    (some : 0 < bytes) (measured : inode.Measured) (small : size < 2 ^ 31) :
    helperSize inode size = Option.some (bytes : Int) ∧ bytes < 2 ^ 31 := by
  have current := toInt_size measured.fits
  have quotient : (inode.size : Int).tdiv 4096 = (inode.size / 4096 : Nat) :=
    (Int.ofNat_tdiv inode.size 4096).symm
  have bound : bytes < 2 ^ 31 := by
    cases asks with
    | first unused => exact small
    | short used larger below => exact small
    | long used total => omega
  refine ⟨?_, bound⟩
  rw [ExtentFs.helperSize, current, quotient]
  dsimp only
  cases asks with
  | first unused =>
    have blank := measured.blank unused
    rw [if_neg (by omega), if_pos unused]
  | short used larger below =>
    rw [if_neg (by omega), if_neg used, if_pos (by omega), if_pos (by omega)]
  | long used total =>
    have difference : toInt ((size : Int) - inode.size) = (size : Int) - inode.size :=
      toInt_of_fits (by omega) (by omega)
    rw [if_neg (by omega), if_neg used, if_pos (by omega), if_neg (by omega), difference,
      if_pos (by omega), Option.some.injEq]
    omega

variable (range : (fs.sb.sbFirstEmptyDb : Int) ≤ fs.sb.maxIndex)
  (measured : (fs.itable i).Measured) (small : size < 2 ^ 31)
  (fresh : fs.attaches i (growthBlocks (fs.itable i) size) = false)

include range measured small fresh

theorem truncateHelper_grown {tail : Bool} {data : Bytes} {fs1 : FsCtx} {helped : Int}
    (asks : Asks (fs.itable i) size bytes tail) (some : 0 < bytes)
    (cleared : data = if tail = true then fs.clearTail (fs.itable i) else fs.data)
    (help : truncateHelper fuel { fs with data := data } i bytes env.now = .ok (fs1, helped)) :
    helped = 0 ∧ (fs1.itable i).size = (fs.itable i).size ∧
      Truncated fs i size env.now (fs1.withSize i size) 0 := by
  obtain ⟨asked, bound⟩ := asks.helperSize some measured small
  rw [growthBlocks, asked, Option.elim_some, requestedBlocks_nat bound] at fresh
  obtain ⟨rfl, start, found, low, room, reach, inside, rfl⟩ :=
    truncateHelper_extended some bound help range fresh
  refine ⟨rfl, extended_size, ?_⟩
  rw [cleared]
  exact .grown rfl asks some found low room reach inside rfl

theorem extendFile_exact (used : 0 ≤ (fs.itable i).lastUsedExtent)
    (larger : (fs.itable i).size < size)
    (h : extendFile env fuel fs i size = .ok (fs', r)) : Truncated fs i size env.now fs' r := by
  have some : (fs.itable i).lastUsedExtent ≠ -1 := by omega
  have leftover := A1fsInode.leftover_nat measured.fits
  have difference : toInt ((size : Int) - (fs.itable i).size) = (size : Int) - (fs.itable i).size :=
    toInt_of_fits (by omega) (by omega)
  have tail {last addr : Int} {data : Bytes} (index : lastDbIndex (fs.itable i) = .ok last)
      (offset : FsCtx.blockOffset last = .ok addr)
      (clear : fs.clearBytes (addr + (fs.itable i).leftover) (4096 - (fs.itable i).leftover) =
        .ok { fs with data := data }) : data = fs.clearTail (fs.itable i) := by
    obtain rfl := lastDbIndex_ok used measured index
    obtain ⟨-, rfl⟩ := blockOffset_ok.mp offset
    obtain ⟨-, same⟩ := clearBytes_ok.mp clear
    have address : (4096 * ((fs.itable i).lastBlock : Int) + ((fs.itable i).size % 4096 : Nat)).toNat =
        4096 * (fs.itable i).lastBlock + (fs.itable i).size % 4096 := by omega
    have length : (4096 - (((fs.itable i).size % 4096 : Nat) : Int)).toNat =
        4096 - (fs.itable i).size % 4096 := by omega
    rw [leftover, address, length] at same
    exact congrArg FsCtx.data same
  cases extendFile_cases range h with
  | short below help =>
    have asks : Asks (fs.itable i) size size false := .short some larger (by omega)
    obtain ⟨-, same, grown⟩ := truncateHelper_grown range measured small fresh asks (by omega)
      (by rfl) help
    rw [toInt_size measured.fits, grow_withSize (by rw [same]; omega) small]
    exact grown
  | long above index offset clear remaining nonzero help =>
    obtain rfl := tail index offset clear
    rw [difference, leftover] at remaining
    obtain ⟨bytes, rfl, some'⟩ := truncateHelper_positive nonzero (by omega) help range
    have asks : Asks (fs.itable i) size bytes true := .long some (by omega)
    obtain ⟨-, same, grown⟩ := truncateHelper_grown range measured small fresh asks some'
      (if_pos rfl).symm help
    rw [same, difference, grow_withSize (by rw [same]; omega) small]
    exact grown
  | filled above index offset clear done =>
    obtain rfl := tail index offset clear
    rw [difference, leftover] at done
    rw [difference, grow_withSize (by dsimp only; omega) small]
    exact .filled rfl some (by omega) rfl
  | stuck even => exact .stuck rfl some larger (by omega) rfl

theorem a1fsTruncate_exact {path : CString} (walk : getInodeNum fs path 0 = .ok (i : Int))
    (h : a1fsTruncate env fuel fs path size = .ok (fs', r)) : Truncated fs i size env.now fs' r := by
  obtain ⟨j, walk', -, truncates⟩ := a1fsTruncate_cases range h
  rw [walk] at walk'
  cases walk'
  have current := toInt_size measured.fits
  cases truncates with
  | same equal => exact .same rfl (by omega) rfl
  | first differ unused help =>
    have blank := measured.blank unused
    obtain ⟨-, -, grown⟩ := truncateHelper_grown range measured small fresh (.first unused)
      (by omega) rfl help
    have exact_ : toUlong (size : Int) = size := by
      rw [toUlong]
      omega
    rw [exact_]
    exact grown
  | larger used larger extend =>
    have low := measured.low
    exact extendFile_exact range measured small fresh (by omega) (by omega) extend
  | smaller used smaller bits => exact .shrunk rfl used (by omega) rfl

end Exact

section Shape

variable {fs fs' : FsCtx} {i size bytes start : Nat} {data : Bytes} {now : Timespec} {r : Int}

theorem withSize_itable : (fs.withSize i size).itable i = { fs.itable i with size := size } := by
  rw [FsCtx.withSize, FsCtx.setInode_self]

theorem extended_itable : ((fs.extended i start bytes data now).withSize i size).itable i =
    { (fs.itable i).appendExtent ⟨start, (bytes + 4095) / 4096,
        zeroedSize ((bytes + 4095) / 4096) (bytes % 4096 : Nat) + (bytes % 4096 : Nat)⟩ now with
      size := size } := by
  have inner : (fs.extended i start bytes data now).itable i = (fs.itable i).appendExtent _ now :=
    FsCtx.setInode_self
  rw [withSize_itable, inner]

theorem extended_blocks (low : -1 ≤ (fs.itable i).lastUsedExtent) :
    (((fs.extended i start bytes data now).withSize i size).itable i).blocks =
      (fs.itable i).blocks ++ List.range' start ((bytes + 4095) / 4096) := by
  have appended (extent : A1fsExtent) : ((fs.itable i).appendExtent extent now).blocks =
      (fs.itable i).blocks ++ extent.blocks := A1fsInode.blocks_appendExtent low
  rw [extended_itable]
  exact appended _

theorem shrunk_itable {l : List Nat} {s : Int} {flipType : Nat} :
    ((fs.setInode i (shrunkInode (fs.itable i) s)).flipBlocks l flipType).itable i =
      shrunkInode (fs.itable i) s := by
  rw [FsCtx.flipBlocks_itable, FsCtx.setInode_self]

theorem shrunk_size {inode : A1fsInode} (small : size < 2 ^ 31) :
    (shrunkInode inode size).size = size := by
  have exact_ : toUlong (size : Int) = size := by
    rw [toUlong]
    omega
  rw [shrunkInode]
  split <;> exact exact_

theorem Truncated.newSize (truncated : Truncated fs i size now fs' 0) (small : size < 2 ^ 31) :
    (fs'.itable i).size = size := by
  cases truncated with
  | same code equal result => rw [result, equal]
  | stuck code => omega
  | filled code used full result => rw [result, withSize_itable]
  | grown code asks some found low room reach inside result => rw [result, extended_itable]
  | shrunk code used smaller result => rw [result, shrunk_itable, shrunk_size small]

theorem Truncated.blocks (truncated : Truncated fs i size now fs' r) :
    (fs'.itable i).blocks = (fs.itable i).blocks ∨ (fs'.itable i).blocks = [] ∨
      ∃ start n : Nat, getAvailableBit fs.sb fs.blockBits .data n = .ok (start : Int) ∧
        (∃ bytes tail, Asks (fs.itable i) size bytes tail ∧ 0 < bytes ∧ n = (bytes + 4095) / 4096) ∧
        (fs'.itable i).blocks = (fs.itable i).blocks ++ List.range' start n ∧
        ∀ b ∈ List.range' start n, 4096 * b < 2 ^ 31 ∧ 4096 * b < fs.dataSize := by
  cases truncated with
  | same code equal result => exact .inl (by rw [result])
  | stuck code used larger full result => exact .inl (by rw [result])
  | filled code used full result =>
    rw [result, withSize_itable]
    exact .inl rfl
  | @grown start bytes tail code asks some found low room reach inside result =>
    rw [result, extended_blocks low]
    refine .inr (.inr ⟨start, _, found, ⟨bytes, tail, asks, some, rfl⟩, rfl, fun b member => ?_⟩)
    rw [List.mem_range'_1] at member
    omega
  | shrunk code used smaller result =>
    rw [result, shrunk_itable, shrunkInode]
    split
    · exact .inr (.inl (A1fsInode.blocks_of_empty rfl))
    · exact .inl rfl

theorem Truncated.measured (truncated : Truncated fs i size now fs' r)
    (measured : (fs.itable i).Measured) (small : size < 2 ^ 31) : (fs'.itable i).Measured := by
  cases truncated with
  | same code equal result => rwa [result]
  | stuck code used larger full result => rwa [result]
  | filled code used full result =>
    rw [result, withSize_itable]
    exact ⟨measured.low, small, fun unused => absurd unused used, measured.counted, measured.near⟩
  | @grown start bytes tail code asks some found low room reach inside result =>
    have blocks : (((fs.extended i start bytes (if tail = true then fs.clearTail (fs.itable i)
        else fs.data) now).withSize i size).itable i).blocks =
        (fs.itable i).blocks ++ List.range' start ((bytes + 4095) / 4096) := extended_blocks low
    rw [result]
    refine ⟨?_, ?_, ?_, ?_, fun b member => ?_⟩
    · rw [extended_itable]
      change -1 ≤ (fs.itable i).lastUsedExtent + 1
      omega
    · rw [extended_itable]
      exact small
    · rw [extended_itable]
      intro unused
      have unused' : (fs.itable i).lastUsedExtent + 1 = -1 := unused
      omega
    · rw [extended_itable]
      intro k slot
      have used : (k : Int) ≤ (fs.itable i).lastUsedExtent + 1 := A1fsInode.mem_usedSlots.mp slot
      change 0 < (((fs.itable i).setExtent _ _).iExtent k).count
      by_cases last : k = ((fs.itable i).lastUsedExtent + 1).toNat
      · rw [last, A1fsInode.setExtent_self]
        dsimp only
        omega
      · rw [A1fsInode.setExtent_other last]
        exact measured.counted k (A1fsInode.mem_usedSlots.mpr (by omega))
    · rw [blocks] at member
      rcases List.mem_append.mp member with old | new
      · exact measured.near b old
      · rw [List.mem_range'_1] at new
        omega
  | shrunk code used smaller result =>
    have exact_ : (shrunkInode (fs.itable i) size).size = size := shrunk_size small
    rw [result, shrunk_itable]
    by_cases zero : (size : Int) = 0
    · exact .of_empty (by rw [zero, shrunk_unused]) (by omega)
    · have kept : (fs.itable i).SameExtents (shrunkInode (fs.itable i) size) := shrunk_sameExtents zero
      refine ⟨?_, by omega, fun unused => ?_, fun k slot => ?_, fun b member => ?_⟩
      · rw [kept.lastUsedExtent]
        exact measured.low
      · rw [kept.lastUsedExtent] at unused
        exact absurd unused used
      · rw [kept.usedSlots] at slot
        rw [kept.count]
        exact measured.counted k slot
      · rw [kept.blocks] at member
        exact measured.near b member

theorem Truncated.changed (truncated : Truncated fs i size now fs' r)
    (measured : (fs.itable i).Measured) :
    ChangedWithin 4096 fs.data fs'.data ((fs.itable i).blocks ++ (fs'.itable i).blocks) := by
  have tail (used : (fs.itable i).lastUsedExtent ≠ -1) :
      ChangedWithin 4096 fs.data (fs.clearTail (fs.itable i)) (fs.itable i).blocks := by
    refine .fill fun x first last => ?_
    have block : x / 4096 = (fs.itable i).lastBlock := by omega
    rw [block]
    have low := measured.low
    exact (measured.lastBlock_mem (by omega)).1
  cases truncated with
  | same code equal result => exact result ▸ .refl
  | stuck code used larger full result => exact result ▸ .refl
  | filled code used full result =>
    rw [result]
    exact (tail used).mono (List.subset_append_left _ _)
  | @grown start bytes tailed code asks some found low room reach inside result =>
    rw [result, extended_blocks low]
    have before : ChangedWithin 4096 fs.data
        (if tailed = true then fs.clearTail (fs.itable i) else fs.data) (fs.itable i).blocks := by
      cases asks with
      | first unused => exact .refl
      | short used larger below => exact .refl
      | long used total => exact tail used
    refine (before.mono (List.subset_append_left _ _)).trans (.fill fun x first last => ?_)
    have member : x / 4096 ∈ List.range' start ((bytes + 4095) / 4096) := mem_run first (by omega)
    simp [member]
  | shrunk code used smaller result => exact result ▸ .refl

end Shape

end ExtentFs
