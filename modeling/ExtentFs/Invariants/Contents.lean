import ExtentFs.Base.Spread
import ExtentFs.Invariants.Sound

namespace ExtentFs

open Base Base.Bytes

/-- The first `inode.size` bytes of the blocks that the extents of an inode cover, in order. -/
def FsCtx.contents (fs : FsCtx) (i : Nat) : List Byte :=
  (gather 4096 fs.data (fs.itable i).blocks).take (fs.itable i).size

/-- A file holds a byte array: it has its length, and blocks enough for it. -/
structure FsCtx.Holds (fs : FsCtx) (i : Nat) (c : List Byte) : Prop where
  length : c.length = (fs.itable i).size
  spells : Spells 4096 fs.data (fs.itable i).blocks c

/-- The byte from which on a growing file zeroes what it covers already: the rest of its last block,
    if the new size does not stay below a block. -/
def zeroedFrom (inode : A1fsInode) (size : Nat) : Nat :=
  if size + inode.size % 4096 < 4096 then size
  else 4096 * (inode.blocks.length - 1) + inode.size % 4096

/-- A file that grows has a block at its end, and what it covers behind its end is zeroed or is zero
    already. -/
structure FsCtx.GrowsZeroed (fs : FsCtx) (inode : A1fsInode) (size : Nat) : Prop where
  covered : inode.size < 4096 * inode.blocks.length
  zeros : ∀ x < min size (zeroedFrom inode size), inode.size ≤ x → spread 4096 fs.data inode.blocks x = 0

/-- A file without blocks gets zeroed ones; one with blocks needs zeros behind its end. -/
def FsCtx.ResizesZeroed (fs : FsCtx) (inode : A1fsInode) (size : Nat) : Prop :=
  inode.lastUsedExtent ≠ -1 → inode.size < size → fs.GrowsZeroed inode size

theorem FsCtx.Holds.contents {fs : FsCtx} {i : Nat} {c : List Byte} (holds : fs.Holds i c) :
    fs.contents i = c := by
  rw [FsCtx.contents, ← holds.length]
  exact holds.spells.gather

section Tail

variable {fs : FsCtx} {inode : A1fsInode} {c : List Byte} {size x : Nat}

theorem A1fsInode.Measured.getD_last (measured : inode.Measured) (used : inode.lastUsedExtent ≠ -1) :
    0 < inode.blocks.length ∧ inode.blocks.getD (inode.blocks.length - 1) 0 = inode.lastBlock := by
  have low := measured.low
  have reached : 0 ≤ inode.lastUsedExtent := by omega
  have some := measured.counted _ (A1fsInode.mem_usedSlots.mpr (Int.toNat_of_nonneg reached).le)
  obtain ⟨front, back⟩ := A1fsInode.blocks_back reached
  have count : (inode.iExtent inode.lastUsedExtent.toNat).blocks.length =
      (inode.iExtent inode.lastUsedExtent.toNat).count := List.length_range'
  have length : inode.blocks.length = front.length + (inode.iExtent inode.lastUsedExtent.toNat).count := by
    rw [back, List.length_append, count]
  refine ⟨by omega, ?_⟩
  rw [length, back, List.getD_append_right _ _ _ _ (by omega), A1fsExtent.blocks_getD (by omega),
    A1fsInode.lastBlock, A1fsInode.blockAfter]
  omega

theorem spread_clearTail (measured : inode.Measured) (used : inode.lastUsedExtent ≠ -1)
    (nodup : inode.blocks.Nodup) (inside : x < 4096 * inode.blocks.length) :
    spread 4096 (fs.clearTail inode) inode.blocks x =
      if 4096 * (inode.blocks.length - 1) + inode.size % 4096 ≤ x then 0
      else spread 4096 fs.data inode.blocks x := by
  obtain ⟨some, last⟩ := measured.getD_last used
  have block : (4096 * (inode.blocks.length - 1) + inode.size % 4096) / 4096 =
      inode.blocks.length - 1 := by omega
  have byte : (4096 * (inode.blocks.length - 1) + inode.size % 4096) % 4096 = inode.size % 4096 := by omega
  have place : (4096 * (inode.blocks.length - 1) + inode.size % 4096) / 4096 < inode.blocks.length := by omega
  have aligned : (4096 * (inode.blocks.length - 1) + inode.size % 4096) % 4096 +
      (4096 - inode.size % 4096) ≤ 4096 := by omega
  have filled : spread 4096 (fs.data.fill (4096 * inode.blocks.getD
        ((4096 * (inode.blocks.length - 1) + inode.size % 4096) / 4096) 0 +
        (4096 * (inode.blocks.length - 1) + inode.size % 4096) % 4096) (4096 - inode.size % 4096) 0)
        inode.blocks x = _ := spread_fill nodup place aligned inside
  rw [block, byte, last] at filled
  rw [FsCtx.clearTail, filled]
  have behind : x < 4096 * (inode.blocks.length - 1) + inode.size % 4096 + (4096 - inode.size % 4096) := by
    omega
  simp only [behind, and_true]

end Tail

section Resize

variable {fs fs' : FsCtx} {i size : Nat} {c : List Byte} {now : Timespec} {r : Int}

theorem FsCtx.Holds.keep (holds : fs.Holds i c) (inode : fs'.itable i = fs.itable i)
    (bytes : ∀ x, x / 4096 ∈ (fs.itable i).blocks → fs'.data x = fs.data x) : fs'.Holds i c := by
  constructor
  · rw [inode]
    exact holds.length
  · rw [inode]
    exact holds.spells.congr bytes

theorem FsCtx.GrowsZeroed.tail (grows : fs.GrowsZeroed (fs.itable i) size) (holds : fs.Holds i c)
    (measured : (fs.itable i).Measured) (used : (fs.itable i).lastUsedExtent ≠ -1)
    (nodup : (fs.itable i).blocks.Nodup) (long : 4096 ≤ size + (fs.itable i).size % 4096) :
    Spells 4096 (fs.clearTail (fs.itable i)) (fs.itable i).blocks c ∧
      ∀ x, c.length ≤ x → x < size → x < 4096 * (fs.itable i).blocks.length →
        spread 4096 (fs.clearTail (fs.itable i)) (fs.itable i).blocks x = 0 := by
  have covered := grows.covered
  have length := holds.length
  have zeros := grows.zeros
  rw [zeroedFrom, if_neg (by omega)] at zeros
  refine ⟨⟨by omega, fun x inside => ?_⟩, fun x behind below inside => ?_⟩
  · rw [spread_clearTail measured used nodup (by omega), if_neg (by omega)]
    exact holds.spells.bytes x inside
  · rw [spread_clearTail measured used nodup inside]
    split
    · rfl
    · exact zeros x (by omega) (by omega)

theorem Asks.zeros {bytes : Nat} {tail : Bool} (asks : Asks (fs.itable i) size bytes tail)
    (some : 0 < bytes) (holds : fs.Holds i c) (measured : (fs.itable i).Measured)
    (nodup : (fs.itable i).blocks.Nodup) (zeroed : fs.ResizesZeroed (fs.itable i) size) :
    Spells 4096 (if tail = true then fs.clearTail (fs.itable i) else fs.data) (fs.itable i).blocks c ∧
      (∀ x, c.length ≤ x → x < size → x < 4096 * (fs.itable i).blocks.length →
        spread 4096 (if tail = true then fs.clearTail (fs.itable i) else fs.data) (fs.itable i).blocks x = 0) ∧
      size ≤ 4096 * (fs.itable i).blocks.length + bytes := by
  have length := holds.length
  cases asks with
  | first unused =>
    have none := A1fsInode.blocks_of_empty unused
    refine ⟨holds.spells, fun x behind below inside => ?_, by omega⟩
    rw [none] at inside
    simp at inside
  | short used larger below =>
    have grows := zeroed used larger
    have covered := grows.covered
    have zeros := grows.zeros
    rw [zeroedFrom, if_pos below] at zeros
    exact ⟨holds.spells, fun x behind below _ => zeros x (by omega) (by omega), by omega⟩
  | long used total =>
    have grows := zeroed used (by omega)
    have covered := grows.covered
    obtain ⟨spells, zeros⟩ := grows.tail holds measured used nodup (by omega)
    exact ⟨spells, zeros, by omega⟩

theorem spells_run {data : Bytes} {blocks : List Nat} {start count bytes : Nat}
    (spells : Spells 4096 data blocks c) (apart : blocks.Disjoint (List.range' start count))
    (zeros : ∀ x, c.length ≤ x → x < size → x < 4096 * blocks.length → spread 4096 data blocks x = 0)
    (reaches : size ≤ 4096 * blocks.length + bytes) (enough : bytes ≤ 4096 * count) :
    Spells 4096 (data.fill (4096 * start) bytes 0) (blocks ++ List.range' start count)
      (resize 0 c size) := by
  have same (a : Nat) (old : a / 4096 ∈ blocks) : data.fill (4096 * start) bytes 0 a = data a := by
    apply fill_outside
    by_contra new
    exact apart old (mem_run (by omega) (by omega))
  have room : size ≤ 4096 * (blocks ++ List.range' start count).length := by
    rw [List.length_append, List.length_range']
    omega
  refine ((spells.congr same).append).resize room fun x behind below => ?_
  by_cases inside : x < 4096 * blocks.length
  · rw [spread_append inside, spread_congr same inside]
    exact zeros x behind below inside
  · obtain ⟨y, rfl⟩ : ∃ y, x = 4096 * blocks.length + y := ⟨x - 4096 * blocks.length, by omega⟩
    rw [spread_append_right (by omega), spread_run (by omega), fill_inside (by omega) (by omega)]

theorem Truncated.holds (truncated : Truncated fs i size now fs' r) (holds : fs.Holds i c)
    (measured : (fs.itable i).Measured) (small : size < 2 ^ 31)
    (nodup : (fs'.itable i).blocks.Nodup) (zeroed : fs.ResizesZeroed (fs.itable i) size) :
    fs'.Holds i (if 0 ≤ r then resize 0 c size else c) := by
  have length := holds.length
  cases truncated with
  | same code equal result =>
    rw [if_pos (by omega), result, ← equal, ← length, resize_length]
    exact holds
  | stuck code used larger full result =>
    rw [if_neg (by omega), result]
    exact holds
  | filled code used full result =>
    have grows := zeroed used (by omega)
    have covered := grows.covered
    rw [result, withSize_itable] at nodup
    obtain ⟨spells, zeros⟩ := grows.tail holds measured used nodup (by omega)
    rw [if_pos (by omega), result]
    constructor
    · rw [length_resize, withSize_itable]
    · rw [withSize_itable]
      exact spells.resize (by omega) fun x behind below => zeros x behind below (by omega)
  | @grown start bytes tail code asks some found low room reach inside result =>
    have blocks : (fs'.itable i).blocks =
        (fs.itable i).blocks ++ List.range' start ((bytes + 4095) / 4096) := by
      rw [result]
      exact extended_blocks low
    have newSize : (fs'.itable i).size = size := by
      rw [result, extended_itable]
    rw [blocks] at nodup
    obtain ⟨spells, zeros, reaches⟩ := asks.zeros some holds measured nodup.of_append_left zeroed
    rw [if_pos (by omega)]
    constructor
    · rw [length_resize, newSize]
    · have data : fs'.data = Bytes.fill (if tail = true then fs.clearTail (fs.itable i) else fs.data)
          (4096 * start) bytes 0 := by
        rw [result]
        rfl
      rw [blocks, data]
      exact spells_run spells (List.disjoint_of_nodup_append nodup) zeros reaches (by omega)
  | shrunk code used smaller result =>
    rw [if_pos (by omega)]
    have newSize : (fs'.itable i).size = size := by
      rw [result, shrunk_itable, shrunk_size small]
    constructor
    · rw [length_resize, newSize]
    · have same : fs'.data = fs.data := by
        rw [result]
        rfl
      have fits := holds.spells.fits
      rw [same]
      by_cases zero : size = 0
      · subst zero
        exact ⟨by simp, fun x below => by simp at below⟩
      · have kept : (fs'.itable i).blocks = (fs.itable i).blocks := by
          rw [result, shrunk_itable, shrunkInode, if_neg (by omega)]
          rfl
        rw [kept]
        exact holds.spells.resize (by omega) fun x behind below => by omega

end Resize

section Write

variable {fs fs' : FsCtx} {inode : A1fsInode} {i a offset : Nat} {buf : List Byte} {c : List Byte}
  {now : Timespec} {r : Int}

theorem Placed.address (placed : Placed inode offset buf.length a) (measured : inode.Measured)
    (front : offset = 0 ∨ (inode.iExtent 0).size ≠ 0) (some : buf ≠ [])
    (room : offset + buf.length ≤ 4096 * inode.blocks.length) :
    a = 4096 * inode.blocks.getD (offset / 4096) 0 + offset % 4096 := by
  have length := List.length_pos_of_ne_nil some
  have counted := measured.counted
  have zero {k : Nat} (start : offset = 0 → k = 0) (passed : ∀ m < k, (inode.iExtent m).size = 0) :
      k = 0 := by
    rcases front with first | sized
    · exact start first
    · by_contra later
      exact sized (passed 0 (by omega))
  have first : (inode.iExtent 0).blocks.length = (inode.iExtent 0).count := List.length_range'
  cases placed with
  | @within k slot start passed fits =>
    obtain rfl := zero start passed
    obtain ⟨rest, blocks, -⟩ := A1fsInode.blocks_front (A1fsInode.mem_usedSlots.mp slot)
    rw [blocks, List.getD_append _ _ _ _ (by omega), A1fsExtent.blocks_getD (by omega)]
    omega
  | @next k slot passed full =>
    have used := A1fsInode.mem_usedSlots.mp slot
    have some' := counted k (A1fsInode.mem_usedSlots.mpr (by omega))
    obtain rfl := zero (fun start => by omega) passed
    have some'' := counted _ slot
    rw [Nat.zero_add] at some'' ⊢
    have reached : 0 ≤ inode.lastUsedExtent := by omega
    obtain ⟨rest, blocks, none | ⟨rest', next⟩⟩ := A1fsInode.blocks_front reached
    · rw [blocks, none, List.append_nil] at room
      omega
    · have second : (inode.iExtent 1).blocks.length = (inode.iExtent 1).count := List.length_range'
      rw [blocks, next, List.getD_append_right _ _ _ _ (by omega), List.getD_append _ _ _ _ (by omega),
        A1fsExtent.blocks_getD (by omega)]
      omega

/-- The search for the offset of a write ends in the first slot. -/
def FrontLanding (inode : A1fsInode) (buf : List Byte) (offset : Nat) : Prop :=
  buf = [] ∨ offset = 0 ∨ (fieldsForWrite inode buf.length offset).head?.any (fun slot => slot.2 ≠ 0) = true

theorem Wrote.holds (wrote : Wrote fs i buf offset now fs' r) (holds : fs.Holds i c)
    (measured : (fs.itable i).Measured) (short : offset + buf.length < 2 ^ 31)
    (aligned : offset % 4096 + buf.length ≤ 4096) (nodup : (fs'.itable i).blocks.Nodup)
    (zeroed : (fs.itable i).size < offset + buf.length →
      fs.ResizesZeroed (fs.itable i) (buf.length + offset))
    (front : FrontLanding (fs.itable i) buf offset) :
    fs'.Holds i (if 0 ≤ r then overwrite 0 c offset buf else c) := by
  have length := holds.length
  -- after the file has been made longer, if it has to be
  have resize {fs1 : FsCtx} (resized : if offset + buf.length > (fs.itable i).size
        then Truncated fs i (buf.length + offset) now fs1 0 else fs1 = fs)
      (nodup : (fs1.itable i).blocks.Nodup) :
      fs1.Holds i (resize 0 c (max c.length (offset + buf.length))) ∧ (fs1.itable i).Measured ∧
        (fs1.itable i).fields = fieldsForWrite (fs.itable i) buf.length offset := by
    split at resized
    · rename_i beyond
      have after := resized.holds holds measured (by omega) nodup (zeroed beyond)
      rw [if_pos (le_refl 0)] at after
      have longer : max c.length (offset + buf.length) = buf.length + offset := by omega
      rw [longer, fieldsForWrite, if_pos beyond]
      exact ⟨after, resized.measured measured (by omega), resized.fields measured (by omega) (by omega)⟩
    · rename_i within
      have same : max c.length (offset + buf.length) = c.length := by omega
      rw [same, resize_length, resized, fieldsForWrite, if_neg within]
      exact ⟨holds, measured, rfl⟩
  cases wrote with
  | refused code beyond stuck result =>
    have failed : ¬ 0 ≤ r := by
      rw [code]
      decide
    rw [if_neg failed, result]
    exact holds
  | @stored fs1 a code some resized place result =>
    rw [if_pos (by omega), result]
    rw [result] at nodup
    obtain ⟨after, measured', fields⟩ := resize resized nodup
    have fits := after.spells.fits
    rw [length_resize] at fits
    have front' : offset = 0 ∨ ((fs1.itable i).iExtent 0).size ≠ 0 := by
      rcases front with none | start | sized
      · exact absurd none some
      · exact .inl start
      · rw [← fields, List.head?_eq_getElem?] at sized
        obtain ⟨slot, at_, nonzero⟩ := (Option.any_eq_true _ _).mp sized
        obtain ⟨-, rfl⟩ := fields_some at_
        exact .inr (of_decide_eq_true nonzero)
    have address := place.address measured' front' some (by omega)
    rw [address]
    constructor
    · rw [length_overwrite, ← after.length, length_resize]
    · rw [← overwrite_resize]
      exact after.spells.overwrite nodup aligned some (by rw [length_resize]; omega)
  | empty code none resized =>
    obtain ⟨after, -, -⟩ := resize resized nodup
    subst none
    rw [if_pos (by omega), overwrite_nil]
    exact after

end Write

end ExtentFs
