import ExtentFs.Effects.Entries

namespace ExtentFs

open Base Base.Bytes

section Extents

variable {inode : A1fsInode} {l : List Nat} {sb sb' : A1fsSuperblock} {bits bits' : Bitmap}
  {freed : Bool}

def A1fsInode.slotBlocks (inode : A1fsInode) (slots : List Nat) : List Nat :=
  slots.flatMap fun k => (inode.iExtent k).blocks

/-- The loop frees the extents of some slots, each with its first bit set when its turn comes,
    and stops, when it stops, at the next one. -/
theorem freeExtents_ok (h : freeExtents inode l sb bits = .ok (sb', bits', freed)) :
    ∃ visited rest, l = visited ++ rest ∧
      (∀ before k after, visited = before ++ k :: after →
        (bits.flipAll (inode.slotBlocks before)).test (inode.iExtent k).start = true) ∧
      (∀ b ∈ inode.slotBlocks visited, b / 8 < bits.length) ∧
      bits' = bits.flipAll (inode.slotBlocks visited) ∧
      sb' = { sb with
        sbFreeBlocksCount :=
          countFlips 0 sb.sbFreeBlocksCount (inode.slotBlocks visited).length } ∧
      (freed = true → rest = []) ∧
      (freed = false → ∃ k ∈ rest, bits'.test (inode.iExtent k).start = false ∧
        rest.head? = some k) := by
  induction l generalizing sb bits with
  | nil =>
    cases h
    exact ⟨[], [], rfl, by simp, by simp [A1fsInode.slotBlocks], rfl,
      by simp [countFlips, A1fsInode.slotBlocks], fun _ => rfl, (fun stopped => by cases stopped)⟩
  | cons k l ih =>
    simp only [freeExtents, bind_eq_ok, A1fsInode.extentAt, guard_eq_ok] at h
    obtain ⟨extent, ⟨-, read⟩, used, test, h⟩ := h
    cases read
    obtain ⟨-, rfl⟩ := checkBitUsage_ok.mp test
    cases bit : bits.test (inode.iExtent k).start with
    | false =>
      simp only [bit, Bool.false_eq_true, if_false, pure_eq_ok] at h
      cases h
      exact ⟨[], k :: l, rfl, by simp, by simp [A1fsInode.slotBlocks], rfl,
        by simp [countFlips, A1fsInode.slotBlocks], (fun done => by cases done),
        fun _ => ⟨k, by simp, bit, rfl⟩⟩
    | true =>
      simp only [bit, if_true, bind_eq_ok] at h
      obtain ⟨⟨sb1, bits1⟩, set, h⟩ := h
      obtain ⟨inside, rfl, rfl⟩ := setBits_data_ok.mp set
      obtain ⟨visited, rest, rfl, marked, insideRest, rfl, rfl, finished, stopped⟩ := ih h
      rw [Int.toNat_natCast] at inside insideRest stopped marked ⊢
      change ∀ b ∈ (inode.iExtent k).blocks, _ at inside
      simp only [Bitmap.flipAll_length] at insideRest
      have blocks : inode.slotBlocks (k :: visited) =
          (inode.iExtent k).blocks ++ inode.slotBlocks visited := rfl
      refine ⟨k :: visited, rest, rfl, ?_, ?_, ?_, ?_, finished, stopped⟩
      · intro before k' after split
        cases before with
        | nil =>
          cases split
          exact bit
        | cons first before =>
          cases split
          have later := marked before k' after rfl
          rwa [← Bitmap.flipAll_append] at later
      · intro b member
        rw [blocks] at member
        rcases List.mem_append.mp member with member | member
        · exact inside b member
        · exact insideRest b member
      · rw [blocks, Bitmap.flipAll_append]
        rfl
      · rw [blocks]
        simp only [countFlips, if_true, List.length_append, A1fsSuperblock.mk.injEq, true_and,
          and_true, A1fsExtent.blocks, List.length_range']
        omega

theorem A1fsInode.slotBlocks_cons {k : Nat} {l : List Nat} :
    inode.slotBlocks (k :: l) = (inode.iExtent k).blocks ++ inode.slotBlocks l := rfl

theorem freeExtents_returns {l : List Nat} (sb : A1fsSuperblock) (slots : ∀ k ∈ l, k < 12 ∧ 0 < (inode.iExtent k).count)
    (nodup : (inode.slotBlocks l).Nodup)
    (marked : ∀ b ∈ inode.slotBlocks l, b / 8 < bits.length ∧ bits.test b = true) :
    freeExtents inode l sb bits = .ok ({ sb with
      sbFreeBlocksCount := countFlips 0 sb.sbFreeBlocksCount (inode.slotBlocks l).length },
      bits.flipAll (inode.slotBlocks l), true) := by
  induction l generalizing sb bits with
  | nil => simp [freeExtents, A1fsInode.slotBlocks, countFlips]
  | cons k l ih =>
    rw [A1fsInode.slotBlocks_cons] at nodup marked ⊢
    obtain ⟨-, rest, apart⟩ := List.nodup_append'.mp nodup
    obtain ⟨below, some⟩ := slots k (by simp)
    have first : (inode.iExtent k).start ∈ (inode.iExtent k).blocks :=
      A1fsExtent.mem_blocks.mpr ⟨le_refl _, by omega⟩
    obtain ⟨inside, set⟩ := marked _ (List.mem_append_left _ first)
    have read : inode.extentAt k = .ok (inode.iExtent k) := if_pos below
    have flip : setBits sb bits (inode.iExtent k).start .data (inode.iExtent k).count 0 = .ok
        ({ sb with sbFreeBlocksCount := countFlips 0 sb.sbFreeBlocksCount (inode.iExtent k).count },
          bits.flipAll (inode.iExtent k).blocks) :=
      setBits_data_ok.mpr ⟨fun b member => (marked b (List.mem_append_left _ member)).1, rfl, rfl⟩
    have later (b : Nat) (member : b ∈ inode.slotBlocks l) :
        b / 8 < (bits.flipAll (inode.iExtent k).blocks).length ∧
          (bits.flipAll (inode.iExtent k).blocks).test b = true := by
      rw [Bitmap.flipAll_length, Bitmap.test_flipAll_of_not_mem fun mine => apart mine member]
      exact marked b (List.mem_append_right _ member)
    have total : countFlips 0 (countFlips 0 sb.sbFreeBlocksCount (inode.iExtent k).count)
        (inode.slotBlocks l).length =
        countFlips 0 sb.sbFreeBlocksCount ((inode.iExtent k).blocks ++ inode.slotBlocks l).length := by
      rw [List.length_append, A1fsExtent.blocks, List.length_range']
      simp only [countFlips, if_true]
      omega
    rw [freeExtents, read, ok_bind, checkBitUsage_ok.mpr ⟨inside, rfl⟩, ok_bind, if_pos set, flip, ok_bind]
    dsimp only
    rw [ih _ (fun k member => slots k (by simp [member])) rest later, Bitmap.flipAll_append, total]

end Extents

section Remove

variable {fs fs' : FsCtx} {path : CString} {ino : Nat} {dirs r : Int} {env : Env}

theorem clearDentry_touches {p addr : Nat} {now : Timespec} :
    fs.creditBlock.Touches (clearDentry fs p addr dirs now) p := by
  have header : fs.creditBlock.Touches (clearDentry fs p addr dirs now) p := by
    refine ⟨rfl, rfl, rfl, rfl, fun j differ => FsCtx.setInode_other differ, ?_⟩
    rw [clearDentry]
    exact ⟨by rw [FsCtx.setInode_self]; rfl, by rw [FsCtx.setInode_self]; rfl,
      by rw [FsCtx.setInode_self]; rfl, fun k => by rw [FsCtx.setInode_self]; rfl,
      fun k => by rw [FsCtx.setInode_self]; rfl⟩
  exact header

theorem removeEntry_ok (h : removeEntry env fs path ino dirs = .ok (fs', r)) :
    (fs.inodeBits.test ino = false ∧ r = -(env.errno : Int) ∧
      fs' = fs.setInode ino (resetInode (fs.itable ino) env.now)) ∨
    (fs.inodeBits.test ino = true ∧ ∃ fs1, fs1 = fs.dropInode ino env.now ∧
      ((r = -(env.errno : Int) ∧ fs' = fs1 ∧ ((∃ p < 0, getInodeNum fs1 path 1 = .ok p) ∨
        ∃ p : Nat, getInodeNum fs1 path 1 = .ok (p : Int) ∧
          fs1.findIno (fs1.itable p) ino = .ok none)) ∨
      ∃ p addr : Nat, getInodeNum fs1 path 1 = .ok (p : Int) ∧ (p : Int) < fs.sb.sbInodesCount ∧
        fs1.findIno (fs1.itable p) ino = .ok (some addr) ∧ r = 0 ∧
        fs' = clearDentry fs1 p addr dirs env.now)) := by
  rw [removeEntry] at h
  dsimp only at h
  rw [bind_eq_ok] at h
  obtain ⟨used, test, h⟩ := h
  obtain ⟨-, rfl⟩ := checkBitUsage_ok.mp test
  rw [FsCtx.setInode_inodeBits] at h
  cases bit : fs.inodeBits.test ino with
  | false =>
    simp only [bit, Bool.false_eq_true, if_false, pure_eq_ok] at h
    cases h
    exact .inl ⟨rfl, rfl, rfl⟩
  | true =>
    simp only [bit, if_true] at h
    rw [bind_eq_ok] at h
    obtain ⟨⟨sb, bits⟩, set, h⟩ := h
    obtain ⟨-, rfl, rfl⟩ := setBits_inode_ok.mp set
    refine .inr ⟨rfl, _, rfl, ?_⟩
    rw [bind_eq_ok] at h
    obtain ⟨parent, walk, h⟩ := h
    change getInodeNum (fs.dropInode ino env.now) path 1 = .ok parent at walk
    split at h
    · rename_i missing
      cases h
      exact .inl ⟨rfl, rfl, .inl ⟨parent, missing, walk⟩⟩
    · obtain ⟨p, rfl, inside, h⟩ := inodeAt_bind_ok.mp h
      rw [bind_eq_ok] at h
      obtain ⟨found, search, h⟩ := h
      cases found with
      | none =>
        cases h
        exact .inl ⟨rfl, rfl, .inr ⟨p, walk, search⟩⟩
      | some addr =>
        cases h
        exact .inr ⟨p, addr, walk, inside, search, rfl, rfl⟩

theorem removeEntry_returns {p addr : Nat} (inside : ino / 8 < fs.inodeBits.length)
    (marked : fs.inodeBits.test ino = true) (range : (p : Int) < fs.sb.sbInodesCount)
    (parent : getInodeNum (fs.dropInode ino env.now) path 1 = .ok (p : Int))
    (search : (fs.dropInode ino env.now).findIno ((fs.dropInode ino env.now).itable p) ino =
      .ok (some addr)) :
    removeEntry env fs path ino dirs = .ok (clearDentry (fs.dropInode ino env.now) p addr dirs env.now, 0) := by
  have test : checkBitUsage fs.inodeBits ino = .ok true := checkBitUsage_ok.mpr ⟨inside, marked.symm⟩
  have flip : setBits fs.sb fs.inodeBits ino .inode (-1) 0 =
      .ok ((fs.dropInode ino env.now).sb, (fs.dropInode ino env.now).inodeBits) :=
    setBits_inode_ok.mpr ⟨inside, rfl, rfl⟩
  have read : (fs.dropInode ino env.now).inodeAt p = .ok ((fs.dropInode ino env.now).itable p) :=
    inodeAt_ok.mpr ⟨⟨by omega, range⟩, rfl⟩
  rw [removeEntry]
  dsimp only
  rw [FsCtx.setInode_inodeBits, FsCtx.setInode_sb, test, ok_bind, if_pos rfl, flip, ok_bind]
  change (getInodeNum (fs.dropInode ino env.now) path 1 >>= _) = _
  rw [parent, ok_bind, if_neg (by omega)]
  change ((fs.dropInode ino env.now).inodeAt p >>= _) = _
  rw [read, ok_bind]
  change ((fs.dropInode ino env.now).findIno ((fs.dropInode ino env.now).itable p) ino >>= _) = _
  rw [search]
  rfl

theorem a1fsRmdir_ok (h : a1fsRmdir env fs path = .ok (fs', r)) :
    ∃ ino : Nat, getInodeNum fs path 0 = .ok (ino : Int) ∧ (ino : Int) < fs.sb.sbInodesCount ∧
      ((0 < (fs.itable ino).numEntries ∧ fs' = fs ∧ r = -eNotEmpty) ∨
      ((fs.itable ino).numEntries = 0 ∧ removeEntry env fs path ino 1 = .ok (fs', r))) := by
  rw [a1fsRmdir, bind_eq_ok] at h
  obtain ⟨inoToRm, walk, h⟩ := h
  obtain ⟨ino, rfl, inside, h⟩ := inodeAt_bind_ok.mp h
  rw [Int.toNat_natCast] at h
  refine ⟨ino, walk, inside, ?_⟩
  split at h
  · rename_i some
    cases h
    exact .inl ⟨some, rfl, rfl⟩
  · rename_i none
    exact .inr ⟨by omega, h⟩

/-- `a1fs_unlink` frees the blocks of some extents, and goes on when these are all. -/
theorem a1fsUnlink_ok (h : a1fsUnlink env fs path = .ok (fs', r)) :
    ∃ ino : Nat, getInodeNum fs path 0 = .ok (ino : Int) ∧ (ino : Int) < fs.sb.sbInodesCount ∧
      ∃ visited rest, (fs.itable ino).usedSlots = visited ++ rest ∧
        (∀ before k after, visited = before ++ k :: after →
          (fs.blockBits.flipAll ((fs.itable ino).slotBlocks before)).test
            ((fs.itable ino).iExtent k).start = true) ∧
        ∃ fs1, fs1 = fs.flipBlocks ((fs.itable ino).slotBlocks visited) 0 ∧
          (∀ b ∈ (fs.itable ino).slotBlocks visited, b / 8 < fs.blockBits.length) ∧
          ((rest = [] ∧ removeEntry env fs1 path ino 0 = .ok (fs', r)) ∨
          (r = -(env.errno : Int) ∧ fs' = fs1 ∧ ∃ k, rest.head? = some k ∧
            fs1.blockBits.test ((fs.itable ino).iExtent k).start = false)) := by
  rw [a1fsUnlink, bind_eq_ok] at h
  obtain ⟨inoToRm, walk, h⟩ := h
  obtain ⟨ino, rfl, inside, h⟩ := inodeAt_bind_ok.mp h
  rw [Int.toNat_natCast] at h
  refine ⟨ino, walk, inside, ?_⟩
  split at h
  · rw [bind_eq_ok] at h
    obtain ⟨⟨sb, bits, freed⟩, free, h⟩ := h
    obtain ⟨visited, rest, slots, marked, room, rfl, rfl, finished, stopped⟩ := freeExtents_ok free
    refine ⟨visited, rest, slots, marked, _, rfl, room, ?_⟩
    cases freed with
    | true => exact .inl ⟨finished rfl, h⟩
    | false =>
      cases h
      obtain ⟨k, -, clear, first⟩ := stopped rfl
      exact .inr ⟨rfl, rfl, k, first, clear⟩
  · rename_i unused
    have last : (fs.itable ino).lastUsedExtent = -1 := by omega
    refine ⟨[], [], ?_, by simp, _, rfl, by simp [A1fsInode.slotBlocks], .inl ⟨rfl, ?_⟩⟩
    · simp [A1fsInode.usedSlots, last]
    · rw [pure_bind] at h
      simpa [A1fsInode.slotBlocks] using h

end Remove

end ExtentFs
