import ExtentFs.Guarantees.Allocation
import ExtentFs.Guarantees.Answers
import ExtentFs.Guarantees.Files

namespace ExtentFs

open Base Base.Bytes

/-- The search for an offset ends: slots without bytes in use are passed over. -/
def searchEnds (fields : List (Nat × Int)) (offset : Nat) : Bool :=
  offset = 0 ∨ (fields.find? fun slot => slot.2 ≠ 0).any (fun slot => (offset : Int) ≤ slot.2) = true

/-- At the end of the first extent there are so many blocks behind it. -/
def FsCtx.RoomBehind (fs : FsCtx) (inode : A1fsInode) (offset blocks : Nat) : Prop :=
  inode.lastUsedExtent ≠ -1 → offset = 4096 * (inode.iExtent 0).count →
    (inode.iExtent 0).start + (inode.iExtent 0).count + blocks ≤ fs.dataBlocks

/-- The requests that find what they need: the blocks for a file that grows, a block for a directory without a free
    entry if there is one, the slot for an offset. -/
def FsCtx.HasRoomFor (fs : FsCtx) (env : Env) : Request → Prop
  | .statfs _ | .getattr _ | .readdir _ | .utimens _ _ => True
  | .read path _ offset => ∀ i ∈ fs.resolve path, offset ≤ (fs.itable i).size →
    searchEnds (fs.itable i).fields offset = true ∧ fs.RoomBehind (fs.itable i) offset 1
  | .change call =>
    call.MakesRegular ∧
    (OnResize fs call fun i size => ∀ bytes ∈ helperSize (fs.itable i) size,
      0 < bytes ∧ FoundInOnePiece fs i (requestedBlocks bytes)) ∧
    (Yields (getAvailableBit fs.sb fs.inodeBits .inode (-1)) fun ino => 0 ≤ ino →
      OnEntry fs env call fun fs _ p => fs.findIno (fs.itable p) (-1) = .ok none →
        fs.NoBlock ∨ FoundInOnePiece fs p 1) ∧
    OnWrite fs call fun i buf offset =>
      searchEnds (fieldsForWrite (fs.itable i) buf.length offset) offset = true ∧
        fs.RoomBehind (fs.itable i) offset ((fs.itable i).iExtent 0).count

section Growth

variable {fs : FsCtx} {i bytes size : Nat} {env : Env} {path : CString}

theorem truncateHelper_returns (steady : Steady fs) (region : fs.dataSize < 2 ^ 31) (data : Bytes) (some : 0 < bytes)
    (found : FoundInOnePiece fs i (requestedBlocks bytes)) (bound : bytes < 2 ^ 31) :
    ∃ fs', truncateHelper 1 { fs with data := data } i bytes env.now = .ok (fs', 0) := by
  rw [requestedBlocks_nat bound] at found
  obtain ⟨⟨first, search, inside⟩, low, room, starts⟩ := found
  have whole := steady.shaped.whole
  have covered := steady.shaped.covered
  have bits : ∀ j ∈ List.range' first ((bytes + 4095) / 4096), j / 8 < fs.blockBits.length := by
    intro j member
    rw [List.mem_range'_1] at member
    omega
  have make : makeDataBlocks i env.now 1 { fs with data := data } ((bytes + 4095) / 4096 : Nat) = .ok _ :=
    makeDataBlocks_append search low room starts bits
  have blocks : 0 < (bytes + 4095) / 4096 := by omega
  obtain ⟨filled, zero⟩ : ∃ filled, zeroOutBlocks i ((fs.itable i).lastUsedExtent + 1).toNat
      (bytes % 4096 : Nat) ((bytes + 4095) / 4096) ((({ fs with data := data } : FsCtx).setInode i
        ((fs.itable i).appendExtent ⟨first, (bytes + 4095) / 4096, 0⟩ env.now)).flipBlocks
          (List.range' first ((bytes + 4095) / 4096)) 1) first ((bytes + 4095) / 4096 : Nat) = .ok (filled, 0) := by
    apply zeroOutBlocks_returns blocks (by omega) (by omega)
    rw [zeroedBytes_nat some]
    show 4096 * first + bytes ≤ fs.dataSize
    omega
  exact ⟨_, truncateHelper_placed (blockRequest_nat bound) blocks low room make zero⟩

theorem lastDbIndex_returns {inode : A1fsInode} (used : 0 ≤ inode.lastUsedExtent) (high : inode.lastUsedExtent < 12)
    (measured : inode.Measured) : lastDbIndex inode = .ok (inode.lastBlock : Int) := by
  have read : inode.extentAt inode.lastUsedExtent.toNat = .ok (inode.iExtent inode.lastUsedExtent.toNat) :=
    if_pos (by omega)
  have total : ∃ last, lastDbIndex inode = .ok last := by
    rw [lastDbIndex, if_neg (by omega), read]
    exact ⟨_, rfl⟩
  obtain ⟨last, answer⟩ := total
  rw [answer, lastDbIndex_ok used measured answer]

/-- What `a1fs_truncate` asks blocks for when it fills the last block first. -/
theorem helperSize_long {inode : A1fsInode} (measured : inode.Measured) (used : inode.lastUsedExtent ≠ -1)
    (larger : inode.size < size) (above : 4096 < size + inode.size % 4096) (small : size < 2 ^ 31)
    (more : (size : Int) - inode.size - (4096 - (inode.size % 4096 : Nat)) ≠ 0) :
    helperSize inode size = some ((size : Int) - inode.size - (4096 - (inode.size % 4096 : Nat))) := by
  have quotient : (inode.size : Int).tdiv 4096 = (inode.size / 4096 : Nat) :=
    (Int.ofNat_tdiv inode.size 4096).symm
  have difference : toInt ((size : Int) - inode.size) = (size : Int) - inode.size :=
    toInt_of_fits (by omega) (by omega)
  rw [helperSize, toInt_size measured.fits, quotient]
  dsimp only
  rw [if_neg (by omega), if_neg used, if_pos (by omega), if_neg (by omega), difference, if_pos (by omega),
    Option.some.injEq]
  omega

variable (tree : Tree fs) (steady : Steady fs) (region : fs.dataSize < 2 ^ 31) (small : size < 2 ^ 31)
  (regular : sIsreg (fs.itable i).mode = true)
  (finds : ∀ bytes ∈ helperSize (fs.itable i) size, 0 < bytes ∧ FoundInOnePiece fs i (requestedBlocks bytes))

include tree steady region small regular finds

theorem extendFile_returns (used : 0 ≤ (fs.itable i).lastUsedExtent) (larger : (fs.itable i).size < size) :
    ∃ fs' r, extendFile env 1 fs i size = .ok (fs', r) := by
  have measured := tree.files i regular
  have fits := measured.fits
  have some : (fs.itable i).lastUsedExtent ≠ -1 := by omega
  have current := toInt_size fits
  have leftover := A1fsInode.leftover_nat fits
  rw [A1fsInode.leftover, current] at leftover
  have difference : toInt ((size : Int) - (fs.itable i).size) = (size : Int) - (fs.itable i).size :=
    toInt_of_fits (by omega) (by omega)
  rw [extendFile, current]
  dsimp only
  rw [leftover]
  rcases Nat.lt_trichotomy (size + (fs.itable i).size % 4096) 4096 with below | full | above
  · have asks : Asks (fs.itable i) size size false := .short some larger below
    obtain ⟨asked, -⟩ := asks.helperSize (by omega) measured small
    obtain ⟨-, found⟩ := finds size asked
    obtain ⟨fs1, help⟩ : ∃ fs', truncateHelper 1 fs i size env.now = .ok (fs', 0) :=
      truncateHelper_returns steady region fs.data (by omega) found small
    rw [if_pos (by omega), help]
    exact ⟨_, _, rfl⟩
  · rw [if_neg (by omega), if_neg (by omega)]
    exact ⟨_, _, rfl⟩
  · obtain ⟨block, -⟩ := measured.lastBlock_mem used
    have near := measured.near _ block
    have inside := (tree.inside i _ block).1
    have whole := steady.shaped.whole
    have index := lastDbIndex_returns used (steady.sane i).high measured
    have offset : FsCtx.blockOffset ((fs.itable i).lastBlock : Int) = .ok (4096 * ((fs.itable i).lastBlock : Int)) :=
      blockOffset_ok.mpr ⟨⟨by omega, by omega⟩, rfl⟩
    have clear : fs.clearBytes (4096 * ((fs.itable i).lastBlock : Int) + ((fs.itable i).size % 4096 : Nat))
        (4096 - ((fs.itable i).size % 4096 : Nat)) = .ok _ :=
      clearBytes_ok.mpr ⟨⟨by omega, by omega, by omega⟩, rfl⟩
    rw [if_neg (by omega), if_pos (by omega), index, ok_bind, offset, ok_bind, clear, ok_bind, difference,
      intArith_ok.mpr ⟨by omega, rfl⟩, ok_bind]
    by_cases more : (size : Int) - (fs.itable i).size - (4096 - ((fs.itable i).size % 4096 : Nat)) = 0
    · rw [if_neg (not_not.mpr more)]
      exact ⟨_, _, rfl⟩
    · obtain ⟨positive, found⟩ := finds _ (helperSize_long measured some larger above small more)
      obtain ⟨bytes, same⟩ := Int.eq_ofNat_of_zero_le positive.le
      rw [if_pos more, same]
      rw [same] at found positive
      obtain ⟨fs1, help⟩ : ∃ fs', truncateHelper 1 { fs with data := _ } i bytes env.now = .ok (fs', 0) :=
        truncateHelper_returns steady region _ (by omega) found (by omega)
      rw [help]
      exact ⟨_, _, rfl⟩

/-- A file is resized when the blocks that it asks for are found. -/
theorem a1fsTruncate_returns (file : IsFile fs path) (found : fs.resolve path = some i) :
    ∃ fs' r, a1fsTruncate env 1 fs path size = .ok (fs', r) := by
  by_cases larger : (fs.itable i).size < size
  · have measured := tree.files i regular
    have range := (live_iff.mp (tree.alive_of_walk (tree.walk_of_resolve found))).1
    have read : fs.inodeAt (i : Int) = .ok (fs.itable i) := inodeAt_ok.mpr ⟨⟨by omega, range⟩, rfl⟩
    have low := measured.low
    rw [a1fsTruncate, getInodeNum_of_resolve found, ok_bind, read, ok_bind, toInt_size measured.fits,
      Int.toNat_natCast]
    dsimp only
    rw [if_neg (by omega)]
    by_cases unused : (fs.itable i).lastUsedExtent = -1
    · have asks : Asks (fs.itable i) size size false := .first unused
      obtain ⟨asked, -⟩ := asks.helperSize (by omega) measured small
      obtain ⟨-, found⟩ := finds size asked
      obtain ⟨fs1, help⟩ : ∃ fs', truncateHelper 1 fs i size env.now = .ok (fs', 0) :=
        truncateHelper_returns steady region fs.data (by omega) found small
      rw [if_pos unused, help]
      exact ⟨_, _, rfl⟩
    · rw [if_neg unused, if_pos (by omega)]
      exact extendFile_returns tree steady region small regular finds (by omega) larger
  · refine a1fsTruncate_answers env tree steady file 1 (by omega) fun j other => ?_
    obtain rfl := own_of_resolve found j other
    omega

end Growth

section Transfer

variable {fs : FsCtx} {inode : A1fsInode} {i k n offset : Nat} {buf : List Byte}

theorem searchEnds_finds (high : inode.lastUsedExtent < 12) (ends : searchEnds inode.fields offset = true) :
    ∃ k, Finds inode offset k := by
  by_cases zero : offset = 0
  · subst zero
    exact ⟨0, .start⟩
  · obtain ⟨slot, found, reaches⟩ : ∃ slot, inode.fields.find? (fun slot => slot.2 ≠ 0) = some slot ∧
        (offset : Int) ≤ slot.2 := by
      simpa [searchEnds, zero, Option.any_eq_true] using ends
    obtain ⟨-, before, rest, split, zeros⟩ := List.find?_eq_some_iff_append.mp found
    have here : inode.fields[before.length]? = some slot := by
      rw [split, List.getElem?_append_right (le_refl _), Nat.sub_self]
      rfl
    obtain ⟨used, rfl⟩ := fields_some here
    have within := A1fsInode.mem_usedSlots.mp used
    refine ⟨before.length, .slot (by omega) (by omega) reaches fun m below => ?_⟩
    have passed : inode.fields[m]? = some before[m] := by
      rw [split, List.getElem?_append_left below, List.getElem?_eq_getElem below]
    obtain ⟨-, same⟩ := fields_some passed
    have skipped := zeros _ (List.getElem_mem below)
    rw [same] at skipped
    simpa using skipped

/-- The slots in use cover blocks of the data region. -/
theorem Tree.slot_inside (tree : Tree fs) (steady : Steady fs) (region : fs.dataSize < 2 ^ 31)
    (regular : sIsreg (fs.itable i).mode = true) (slot : k ∈ (fs.itable i).usedSlots) :
    0 < ((fs.itable i).iExtent k).count ∧
      4096 * (((fs.itable i).iExtent k).start + ((fs.itable i).iExtent k).count) ≤ fs.dataSize ∧
      ((fs.itable i).iExtent k).start * 4096 % 2 ^ 32 = 4096 * ((fs.itable i).iExtent k).start := by
  have some := (tree.files i regular).counted k slot
  have last : ((fs.itable i).iExtent k).start + ((fs.itable i).iExtent k).count - 1 ∈ (fs.itable i).blocks :=
    A1fsInode.mem_blocks.mpr ⟨k, slot, A1fsExtent.mem_blocks.mpr ⟨by omega, by omega⟩⟩
  have inside := (tree.inside i _ last).1
  have whole := steady.shaped.whole
  omega

end Transfer

section Loops

variable {fs : FsCtx} {inode : A1fsInode} {i k n offset slots : Nat} {buf : List Byte} {out : Buffer}

theorem copyExtents_fits (some : buf ≠ []) (inside : k < 12)
    (address : (inode.iExtent k).start * 4096 % 2 ^ 32 = 4096 * (inode.iExtent k).start)
    (fits : offset + buf.length ≤ 4096 * (inode.iExtent k).count)
    (inRegion : 4096 * ((inode.iExtent k).start + (inode.iExtent k).count) ≤ fs.dataSize)
    (small : fs.dataSize < 2 ^ 31) :
    ∃ fs', copyExtents inode buf (slots + 1) fs k offset buf.length 0 = .ok fs' := by
  have length := List.length_pos_of_ne_nil some
  have read : inode.extentAt k = .ok (inode.iExtent k) := if_pos inside
  rw [copyExtents, if_pos (by omega), read, ok_bind, address]
  dsimp only
  rw [intArith_ok.mpr ⟨by omega, rfl⟩, ok_bind, if_neg (by omega)]
  refine ⟨_, storeBytes_ok.mpr ⟨⟨by omega, ?_⟩, rfl⟩⟩
  rw [List.length_take, List.length_drop]
  omega

variable (tree : Tree fs) (steady : Steady fs) (region : fs.dataSize < 2 ^ 31)
  (regular : sIsreg (fs.itable i).mode = true) (slot : k ∈ (fs.itable i).usedSlots) (inside : k < 12)
  (place : offset < 4096 * ((fs.itable i).iExtent k).count ∨
    (offset = 4096 * ((fs.itable i).iExtent k).count ∧ k + 1 ∈ (fs.itable i).usedSlots))

include tree steady region regular slot inside place

theorem copyExtents_returns (some : buf ≠ []) (aligned : offset % 4096 + buf.length ≤ 4096)
    (behind : k + 1 ∈ (fs.itable i).usedSlots → offset = 4096 * ((fs.itable i).iExtent k).count →
      ((fs.itable i).iExtent k).start + 2 * ((fs.itable i).iExtent k).count ≤ fs.dataBlocks) :
    ∃ fs', copyExtents (fs.itable i) buf (12 - k) fs k offset buf.length 0 = .ok fs' := by
  have length := List.length_pos_of_ne_nil some
  have whole := steady.shaped.whole
  obtain ⟨counted, inRegion, address⟩ := tree.slot_inside steady region regular slot
  obtain ⟨slots, left⟩ : ∃ slots, 12 - k = slots + 1 := ⟨11 - k, by omega⟩
  rw [left]
  rcases place with before | ⟨full, next⟩
  · exact copyExtents_fits some inside address (by omega) inRegion (by omega)
  · -- nothing is stored behind the extent, at an address that counts the offset twice
    have high := (steady.sane i).high
    have within := A1fsInode.mem_usedSlots.mp next
    obtain ⟨counted', inRegion', address'⟩ := tree.slot_inside steady region regular next
    obtain ⟨slots, rfl⟩ : ∃ m, slots = m + 1 := ⟨slots - 1, by omega⟩
    have read : (fs.itable i).extentAt k = .ok ((fs.itable i).iExtent k) := if_pos inside
    have room := behind next full
    have rest : ((fs.itable i).iExtent k).count * 4096 - (offset : Int) = 0 := by omega
    rw [copyExtents, if_pos (by omega), read, ok_bind, address]
    dsimp only
    rw [intArith_ok.mpr ⟨by omega, rfl⟩, ok_bind, rest, if_pos (by omega), if_neg (by omega), Int.toNat_zero,
      List.take_zero, Int.sub_zero]
    have store : fs.storeBytes ((4096 * ((fs.itable i).iExtent k).start : Nat) + (offset : Int) + offset) [] =
        .ok fs := by
      refine storeBytes_ok.mpr ⟨⟨by omega, by rw [List.length_nil]; omega⟩, ?_⟩
      rw [store_nil]
    have fits : (0 : Nat) + buf.length ≤ 4096 * ((fs.itable i).iExtent (k + 1)).count := by omega
    rw [store, ok_bind]
    exact copyExtents_fits some (by omega) address' fits inRegion' (by omega)

theorem readExtents_returns (some : 0 < n) (aligned : offset % 4096 + n ≤ 4096)
    (behind : k + 1 ∈ (fs.itable i).usedSlots → offset = 4096 * ((fs.itable i).iExtent k).count →
      ((fs.itable i).iExtent k).start + ((fs.itable i).iExtent k).count < fs.dataBlocks) :
    ∃ out', readExtents fs (fs.itable i) n (12 - k) out k offset n 0 = .ok out' := by
  have whole := steady.shaped.whole
  obtain ⟨counted, inRegion, address⟩ := tree.slot_inside steady region regular slot
  obtain ⟨slots, left⟩ : ∃ slots, 12 - k = slots + 1 := ⟨11 - k, by omega⟩
  rw [left]
  rcases place with before | ⟨full, next⟩
  · exact ⟨_, (readExtents_within some inside (by omega)).mpr ⟨by omega, by omega, rfl⟩⟩
  · have high := (steady.sane i).high
    have within := A1fsInode.mem_usedSlots.mp next
    obtain ⟨counted', inRegion', address'⟩ := tree.slot_inside steady region regular next
    obtain ⟨slots, rfl⟩ : ∃ m, slots = m + 1 := ⟨slots - 1, by omega⟩
    have room := behind next full
    have rest : (n : Int) - (4096 * (((fs.itable i).iExtent k).count : Int) - offset) = n := by omega
    have index : (4096 * (((fs.itable i).iExtent k).count : Int) - offset) = 0 := by omega
    have loop (out : Buffer) : ∃ out', readExtents fs (fs.itable i) n (slots + 1) out (k + 1) 0 n 0 = .ok out' :=
      ⟨_, (readExtents_first some (by omega) (by omega)).mpr ⟨by omega, by omega, rfl⟩⟩
    obtain ⟨out', last⟩ := loop fun x => if x < n
      then Option.some (fs.data (((fs.itable i).iExtent k).start * 4096 % 2 ^ 32 + offset + x)) else out x
    refine ⟨out', (readExtents_turn (by omega) inside (by omega)).mpr ⟨by omega, by omega, ⟨by omega, by omega⟩, ?_⟩⟩
    rw [rest, index]
    exact last

end Loops

section Files

variable {fs fs' : FsCtx} {i size offset : Nat} {path : CString} {buf : List Byte} {env : Env} {now : Timespec}

theorem copyExtents_nothing {inode : A1fsInode} {slots k : Nat} {first written : Int} :
    copyExtents inode [] slots fs k first 0 written = .ok fs := by
  cases slots with
  | zero => rfl
  | succ slots => rfl

/-- The part of `a1fs_write` after the file has been resized. -/
theorem writeData_returns (tree : Tree fs) (steady : Steady fs) (region : fs.dataSize < 2 ^ 31)
    (regular : sIsreg (fs.itable i).mode = true) (short : offset + buf.length < 2 ^ 31)
    (aligned : offset % 4096 + buf.length ≤ 4096) (room : buf ≠ [] → offset + buf.length ≤ (fs.itable i).size)
    (ends : searchEnds (fs.itable i).fields offset = true)
    (inside : buf = [] ∨ offset = 0 ∨ lands (fs.itable i).fields offset = true)
    (front : buf = [] ∨ offset = 0 ∨ ((fs.itable i).iExtent 0).size ≠ 0)
    (behind : 1 ∈ (fs.itable i).usedSlots → offset = 4096 * ((fs.itable i).iExtent 0).count →
      ((fs.itable i).iExtent 0).start + 2 * ((fs.itable i).iExtent 0).count ≤ fs.dataBlocks) :
    ∃ out, (do
        let found ← findOffsetExtent (fs.itable i) (toInt offset) 12 0
        if found.2 < 0 then pure (fs, -env.errno)
        else do
          let copied ← copyExtents (fs.itable i) buf (12 - found.1) fs found.1 (toInt offset) (toInt buf.length) 0
          pure (copied, toInt buf.length) : Checked (FsCtx × Int)) = .ok out := by
  obtain ⟨k, finds⟩ := searchEnds_finds (steady.sane i).high ends
  rw [toInt_size (by omega), toInt_size (by omega), finds_iff.mpr ⟨k, rfl, finds⟩, ok_bind]
  dsimp only
  rw [if_neg (by omega)]
  by_cases none : buf = []
  · subst none
    rw [List.length_nil, Nat.cast_zero, copyExtents_nothing]
    exact ⟨_, rfl⟩
  · have length := List.length_pos_of_ne_nil none
    have covered := room none
    obtain ⟨slot, place⟩ := finds.place (tree.files i regular) (by omega) (inside.resolve_left none)
    have first : k = 0 := by
      cases finds with
      | start => rfl
      | slot some below reaches passed =>
        by_contra later
        have sized := (front.resolve_left none).resolve_left (by omega)
        exact sized (passed 0 (by omega))
    subst first
    obtain ⟨copied, copy⟩ : ∃ copied, copyExtents (fs.itable i) buf (12 - 0) fs 0 offset buf.length 0 = .ok copied :=
      copyExtents_returns tree steady region regular slot (by omega) place none aligned behind
    rw [copy]
    exact ⟨_, rfl⟩

/-- A file that has two extents after it has grown has kept its first. -/
theorem Truncated.first_slot (truncated : Truncated fs i size now fs' 0) (larger : (fs.itable i).size < size)
    (next : 1 ∈ (fs'.itable i).usedSlots) :
    (fs.itable i).lastUsedExtent ≠ -1 ∧ (fs'.itable i).iExtent 0 = (fs.itable i).iExtent 0 := by
  rw [A1fsInode.mem_usedSlots] at next
  cases truncated with
  | same code equal => omega
  | stuck code => omega
  | shrunk code used smaller => omega
  | filled code used full result => exact ⟨used, by rw [result, withSize_itable]⟩
  | grown code asks some found low room reach inside result =>
    rw [result, extended_itable] at next
    have more : (1 : Int) ≤ (fs.itable i).lastUsedExtent + 1 := next
    rw [result, extended_itable]
    exact ⟨by omega, A1fsInode.setExtent_other (by omega)⟩

theorem a1fsWrite_returns (tree : Tree fs) (steady : Steady fs) (region : fs.dataSize < 2 ^ 31) {r : Int}
    (sound : Sound fs ⟨.write path buf offset, env, r⟩) (found : fs.resolve path = some i)
    (front : FrontLanding (fs.itable i) buf offset)
    (finds : (fs.itable i).size < offset + buf.length → ∀ bytes ∈ helperSize (fs.itable i) (buf.length + offset : Nat),
      0 < bytes ∧ FoundInOnePiece fs i (requestedBlocks bytes))
    (ends : searchEnds (fieldsForWrite (fs.itable i) buf.length offset) offset = true)
    (behind : fs.RoomBehind (fs.itable i) offset ((fs.itable i).iExtent 0).count) :
    ∃ fs' r, a1fsWrite env 1 fs path buf offset = .ok (fs', r) := by
  obtain ⟨file, aligned⟩ := sound.documented
  obtain ⟨j, found', regular, alive, -⟩ := tree.file file
  obtain rfl := own_of_resolve found j found'
  have walk := getInodeNum_of_resolve found
  obtain ⟨short, lands⟩ := sound.lands.holds walk
  have measured := tree.files j regular
  have read : fs.inodeAt (j : Int) = .ok (fs.itable j) := inodeAt_ok.mpr ⟨⟨by omega, (live_iff.mp alive).1⟩, rfl⟩
  have sized {fs1 : FsCtx} (fields : (fs1.itable j).fields = fieldsForWrite (fs.itable j) buf.length offset) :
      buf = [] ∨ offset = 0 ∨ ((fs1.itable j).iExtent 0).size ≠ 0 := by
    rcases front with none | start | first
    · exact .inl none
    · exact .inr (.inl start)
    · rw [← fields, List.head?_eq_getElem?] at first
      obtain ⟨slot, here, nonzero⟩ := (Option.any_eq_true _ _).mp first
      obtain ⟨-, rfl⟩ := fields_some here
      exact .inr (.inr (of_decide_eq_true nonzero))
  rw [a1fsWrite, walk, ok_bind, if_neg (by omega), read, ok_bind, Int.toNat_natCast]
  dsimp only
  by_cases beyond : offset + buf.length > (fs.itable j).size
  · obtain ⟨low, high, grows⟩ := sound.resizes.holds walk (if_pos beyond)
    obtain ⟨fs1, t, resize⟩ : ∃ fs1 t, a1fsTruncate env 1 fs path (buf.length + offset : Nat) = .ok (fs1, t) :=
      a1fsTruncate_returns tree steady region (by omega) regular (finds beyond) file found
    have truncated := a1fsTruncate_exact steady.shaped.range measured (by omega) grows.apart walk resize
    rw [if_pos beyond, resize, ok_bind]
    dsimp only
    by_cases failed : t = 0
    · subst failed
      have step := truncated.fileStep tree steady regular (by omega) grows
      have tree' := step.tree tree alive regular
      have taken : a1fs.Step fs ⟨.truncate path (buf.length + offset : Nat), env, 0⟩ fs1 := ⟨1, resize⟩
      have steady' := steady.step taken
      have fields := truncated.fields measured (by omega) (by omega)
      have expected : (fs1.itable j).fields = fieldsForWrite (fs.itable j) buf.length offset := by
        rw [fields, fieldsForWrite, if_pos beyond]
      have size := truncated.newSize (by omega)
      have whole := steady.shaped.whole
      have whole' := steady'.shaped.whole
      have same := step.sizes
      rw [if_neg (by omega)]
      obtain ⟨⟨fs2, r⟩, returned⟩ := writeData_returns tree' steady' (by omega) (by rwa [step.mode]) short aligned
        (fun _ => by omega) (by rwa [expected]) (by rwa [expected]) (sized expected) fun next full => by
          obtain ⟨used, kept⟩ := truncated.first_slot (by omega) next
          rw [kept] at full ⊢
          have room := behind used full
          omega
      exact ⟨fs2, r, returned⟩
    · rw [if_pos failed]
      exact ⟨_, _, rfl⟩
  · rw [if_neg beyond, pure_bind]
    dsimp only
    have expected : (fs.itable j).fields = fieldsForWrite (fs.itable j) buf.length offset := by
      rw [fieldsForWrite, if_neg beyond]
    rw [if_neg (by omega)]
    rw [← expected] at ends lands
    obtain ⟨⟨fs2, r⟩, returned⟩ := writeData_returns tree steady region regular short aligned (fun _ => by omega)
      ends lands (sized expected) fun next full => by
        have within := A1fsInode.mem_usedSlots.mp next
        have room := behind (by omega) full
        omega
    exact ⟨fs2, r, returned⟩

theorem a1fsRead_returns (tree : Tree fs) (steady : Steady fs) (region : fs.dataSize < 2 ^ 31)
    (file : IsFile fs path) (found : fs.resolve path = some i) (aligned : offset % 4096 + size ≤ 4096)
    (front : (fs.itable i).ReadsFront size offset)
    (room : offset ≤ (fs.itable i).size →
      searchEnds (fs.itable i).fields offset = true ∧ fs.RoomBehind (fs.itable i) offset 1) :
    ∃ r out, a1fsRead env fs path size offset = .ok (r, out) := by
  obtain ⟨j, found', regular, alive, -⟩ := tree.file file
  obtain rfl := own_of_resolve found j found'
  have measured := tree.files j regular
  have walk := getInodeNum_of_resolve found
  have range := (live_iff.mp alive).1
  have short : size < 2 ^ 31 := by omega
  by_cases after : (fs.itable j).size < offset
  · exact ⟨0, _, (a1fsRead_ok walk range measured.fits short).mpr (.inl ⟨after, rfl, rfl⟩)⟩
  · have reached : offset ≤ (fs.itable j).size := by omega
    obtain ⟨ends, behind⟩ := room reached
    obtain ⟨k, finds⟩ := searchEnds_finds (steady.sane j).high ends
    obtain ⟨covered, place⟩ := front.resolve_left after
    by_cases none : size = 0
    · subst none
      exact ⟨_, _, (a1fsRead_ok walk range measured.fits short).mpr
        (.inr ⟨reached, rfl, k, finds, readExtents_nothing⟩)⟩
    · have inside : offset = 0 ∨ lands (fs.itable j).fields offset = true :=
        (place.resolve_left none).imp_right And.left
      obtain ⟨slot, place'⟩ := finds.place measured (by omega) inside
      have first : k = 0 := by
        cases finds with
        | start => rfl
        | slot some below reaches passed =>
          by_contra later
          have sized := ((place.resolve_left none).resolve_left (by omega)).2
          exact sized (passed 0 (by omega))
      subst first
      obtain ⟨out, loop⟩ : ∃ out, readExtents fs (fs.itable j) size (12 - 0) (fun _ => Option.none) 0 offset size 0 =
          .ok out := readExtents_returns tree steady region regular slot (by omega) place' (by omega) aligned
        fun next full => by
          have within := A1fsInode.mem_usedSlots.mp next
          have room := behind (by omega) full
          omega
      exact ⟨_, _, (a1fsRead_ok walk range measured.fits short).mpr (.inr ⟨reached, rfl, 0, finds, loop⟩)⟩

end Files

section Runs

variable {fs fs' : FsCtx} {env : Env} {request : Request} {exchanges : List Exchange}

theorem Regular.replied (regular : Regular fs ⟨request, env, .status 0⟩) (reply : Reply) :
    Regular fs ⟨request, env, reply⟩ := by
  cases request with
  | statfs | getattr | readdir | read | utimens => exact regular
  | change call =>
    obtain ⟨paths, contents, blank⟩ := regular ⟨call, env, 0⟩ rfl
    rintro event made
    cases reply with
    | statfs | getattr | readdir | read => cases made
    | status r =>
      cases made
      have sound : Sound fs ⟨call, env, r⟩ := by
        obtain ⟨documented, findsSlot, keepsRoot, resizes, enters, lands⟩ := blank.sound
        exact ⟨documented, findsSlot, keepsRoot, resizes, enters, lands⟩
      exact ⟨⟨sound, paths.room, paths.passes⟩, ⟨sound, contents.zeroed, contents.front⟩, ⟨sound, blank.enters⟩⟩

theorem FoundInOnePiece.forEntry {p : Nat} (found : FoundInOnePiece fs p 1) (steady : Steady fs)
    (region : fs.dataSize < 2 ^ 31) :
    fs.HasBlock ∧ fs.StartsExtent p 1 ∧ (fs.itable p).lastUsedExtent < 11 := by
  obtain ⟨⟨first, search, inside⟩, -, slot, starts⟩ := found
  have whole := steady.shaped.whole
  exact ⟨⟨first, search, inside, by omega⟩, starts, slot⟩

/-- A request that finds what it needs is answered. -/
theorem Tree.serves (tree : Tree fs) (steady : Steady fs) (blank : fs.AllBlank) (region : fs.dataSize < 2 ^ 31)
    (regular : Regular fs ⟨request, env, .status 0⟩) (room : fs.HasRoomFor env request) :
    ∃ fs' reply, driver.Step fs ⟨request, env, reply⟩ fs' := by
  have answers {request : Request} (asked : Answerable fs request) :
      ∃ fs' reply, driver.Step fs ⟨request, env, reply⟩ fs' := by
    obtain ⟨fs', reply, step, -⟩ := tree.answers env steady blank asked
    exact ⟨fs', reply, step⟩
  cases request with
  | statfs path => exact answers trivial
  | getattr path => exact answers regular
  | readdir path => exact answers regular
  | utimens path times => exact answers ⟨regular.1, regular.2.1⟩
  | read path size offset =>
    obtain ⟨file, aligned, front⟩ := regular
    obtain ⟨i, found, -⟩ := tree.file file
    obtain ⟨r, out, answer⟩ : ∃ r out, a1fsRead env fs path size offset = .ok (r, out) :=
      a1fsRead_returns tree steady region file found aligned (front i found) (room i found)
    refine ⟨fs, .read r out, ⟨0, ?_⟩⟩
    rw [Request.serve, answer]
    rfl
  | change call =>
    obtain ⟨paths, contents, -⟩ := regular ⟨call, env, 0⟩ rfl
    obtain ⟨typed, resizes, enters, writes⟩ := room
    have sound := paths.sound
    have serves {fs' : FsCtx} {r : Int} (returned : call.exec env 1 fs = .ok (fs', r)) :
        ∃ fs' reply, driver.Step fs ⟨.change call, env, reply⟩ fs' := by
      have step : a1fs.Step fs ⟨call, env, r⟩ fs' := ⟨1, returned⟩
      exact ⟨fs', .status r, Event.serves step⟩
    have adds {mode : BitVec 32} (new : call.newMode = some mode) (creatable : Creatable fs call.path) (ino p : Nat)
        (free : getAvailableBit fs.sb fs.inodeBits .inode (-1) = .ok (ino : Int))
        (number : getInodeNum (fs.takeInode ino mode env.now) call.path 1 = .ok (p : Int)) :
        ∃ fs' r, addDentry (fs.takeInode ino mode env.now) p ino (strrchr call.path.bytes) env.now = .ok (fs', r) := by
      obtain ⟨q, number', -, -, -, readable⟩ := tree.finds_parent steady creatable mode env.now free
      obtain rfl : q = p := by
        have same := Except.ok.inj (number'.symm.trans number)
        omega
      have room := (enters _ free (by omega)).holds new free number
      refine addDentry_returns steady.takeInode readable creatable.name_short fun full => ?_
      exact (room full).imp_right fun found => found.forEntry steady.takeInode region
    cases call with
    | create path mode =>
      obtain ⟨fs', r, returned, -⟩ := newEntry_answers env tree steady sound.documented mode (-env.errno)
        (adds rfl sound.documented)
      exact serves ((if_pos typed).trans returned)
    | mkdir path mode =>
      obtain ⟨fs', r, returned, -⟩ := newEntry_answers env tree steady sound.documented.1 (mode ||| sIfdir) (-eNoEnt)
        (adds rfl sound.documented.1)
      exact serves returned
    | unlink path => exact answers sound.documented
    | rmdir path =>
      exact answers ⟨sound.documented, tree.tokens_of_rmdir sound.documented sound.keepsRoot⟩
    | truncate path size =>
      obtain ⟨i, found, file, -⟩ := tree.file sound.documented
      have walk := getInodeNum_of_resolve found
      obtain ⟨low, small, -⟩ := sound.resizes.holds walk rfl
      have finds := resizes.holds walk rfl
      obtain ⟨n, rfl⟩ := Int.eq_ofNat_of_zero_le low
      obtain ⟨fs', r, returned⟩ : ∃ fs' r, a1fsTruncate env 1 fs path n = .ok (fs', r) :=
        a1fsTruncate_returns tree steady region (by omega) file finds sound.documented found
      exact serves returned
    | write path buf offset =>
      obtain ⟨i, found, file, -⟩ := tree.file sound.documented.1
      have walk := getInodeNum_of_resolve found
      obtain ⟨ends, behind⟩ := writes.holds walk
      obtain ⟨fs', r, returned⟩ := a1fsWrite_returns tree steady region sound found (contents.front.holds walk)
        (fun beyond => resizes.holds walk (if_pos beyond)) ends behind
      exact serves returned

/-- No request gets stuck that keeps to what is expected of it and finds what it needs, and the run goes on. -/
theorem regular_requests_served (run : driver.Trace Regular exchanges fs) (region : fs.dataSize < 2 ^ 31) (env : Env)
    (regular : ∀ reply, Regular fs ⟨request, env, reply⟩) (room : fs.HasRoomFor env request) :
    ∃ fs' reply, driver.Trace Regular (exchanges ++ [⟨request, env, reply⟩]) fs' := by
  obtain ⟨steady, tree⟩ := tree_of_driver run.reaches fun _ _ regular => regular.tended
  obtain ⟨fs', reply, step⟩ := tree.serves steady (kept_of_driver run.reaches).blank region (regular _) room
  exact ⟨fs', reply, .step run (regular reply) step⟩

instance (fs : FsCtx) (i n : Nat) : Decidable (FoundInOnePiece fs i n) :=
  decidable_of_iff ((∃ first, getAvailableBit fs.sb fs.blockBits .data n = .ok first ∧ 0 ≤ first ∧
      first.toNat + n ≤ fs.dataBlocks) ∧ -1 ≤ (fs.itable i).lastUsedExtent ∧ (fs.itable i).lastUsedExtent < 11 ∧
        fs.StartsExtent i n) <| by
    refine and_congr_left' ⟨?_, ?_⟩
    · rintro ⟨first, search, low, inside⟩
      obtain ⟨first, rfl⟩ := Int.eq_ofNat_of_zero_le low
      exact ⟨first, search, by omega⟩
    · rintro ⟨first, search, inside⟩
      exact ⟨first, search, by omega, by omega⟩

instance (fs : FsCtx) (inode : A1fsInode) (offset blocks : Nat) : Decidable (fs.RoomBehind inode offset blocks) :=
  inferInstanceAs (Decidable (_ → _ → _))

instance (fs : FsCtx) (env : Env) : (request : Request) → Decidable (fs.HasRoomFor env request)
  | .statfs _ | .getattr _ | .readdir _ | .utimens _ _ => .isTrue trivial
  | .read path _ offset => inferInstanceAs (Decidable (∀ i ∈ fs.resolve path, offset ≤ (fs.itable i).size →
      searchEnds (fs.itable i).fields offset = true ∧ fs.RoomBehind (fs.itable i) offset 1))
  | .change _ => inferInstanceAs (Decidable (_ ∧ _ ∧ _ ∧ _))

/-- A file in a new directory, without bytes yet. -/
def emptyFileRun : Option (FsCtx × List Exchange) :=
  exchangeAll Regular 10 device [(quiet, .change (.mkdir pathB 0)), (quiet, .change (.create pathBC regularMode))]

theorem regular_requests_served_run : ∃ fs exchanges fs' reply, emptyFileRun = some (fs, exchanges) ∧
    driver.Trace Regular (exchanges ++ [⟨.change (.write pathBC [122#8, 123#8] 20), quiet, reply⟩]) fs' := by
  have returns : ∃ out ∈ emptyFileRun, out.1.dataSize < 2 ^ 31 ∧
      Regular out.1 ⟨.change (.write pathBC [122#8, 123#8] 20), quiet, .status 0⟩ ∧
      out.1.HasRoomFor quiet (.change (.write pathBC [122#8, 123#8] 20)) := by decide +kernel
  obtain ⟨⟨fs, exchanges⟩, returned, region, regular, room⟩ := returns
  have run : driver.Trace Regular ([] ++ exchanges) fs := exchangeAll_trace (.initial device_initial) returned
  obtain ⟨fs', reply, served⟩ := regular_requests_served run region quiet (fun reply => regular.replied reply) room
  exact ⟨fs, exchanges, fs', reply, returned, served⟩

end Runs

end ExtentFs
