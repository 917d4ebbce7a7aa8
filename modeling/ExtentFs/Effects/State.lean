import ExtentFs.Effects.Bits

namespace ExtentFs

open Base

namespace A1fsExtent

def blocks (extent : A1fsExtent) : List Nat := List.range' extent.start extent.count

theorem mem_blocks {extent : A1fsExtent} {b : Nat} :
    b ∈ extent.blocks ↔ extent.start ≤ b ∧ b < extent.start + extent.count := by
  rw [blocks, List.mem_range'_1]

theorem blocks_getD {extent : A1fsExtent} {k : Nat} (below : k < extent.count) :
    extent.blocks.getD k 0 = extent.start + k := by
  have inside : k < extent.blocks.length := by
    rw [blocks, List.length_range']
    exact below
  rw [List.getD_eq_getElem _ _ inside]
  simp [blocks]

end A1fsExtent

namespace A1fsInode

/-- The data blocks of an inode, in the order in which its extents are walked. -/
def blocks (inode : A1fsInode) : List Nat := inode.usedSlots.flatMap fun k => (inode.iExtent k).blocks

def appendExtent (inode : A1fsInode) (extent : A1fsExtent) (now : Timespec) : A1fsInode :=
  { inode.setExtent (inode.lastUsedExtent + 1).toNat extent with
    lastUsedExtent := inode.lastUsedExtent + 1
    iMtime := now }

def extendLast (inode : A1fsInode) (count : Nat) (now : Timespec) : A1fsInode :=
  let last := inode.iExtent inode.lastUsedExtent.toNat
  { inode.setExtent inode.lastUsedExtent.toNat { last with count := last.count + count } with
    iMtime := now }

def blockAfter (inode : A1fsInode) : Nat :=
  let last := inode.iExtent inode.lastUsedExtent.toNat
  last.start + last.count

variable {inode inode' : A1fsInode} {now : Timespec}

theorem mem_usedSlots {k : Nat} : k ∈ inode.usedSlots ↔ (k : Int) ≤ inode.lastUsedExtent := by
  rw [usedSlots, List.mem_range]
  omega

theorem mem_blocks {b : Nat} :
    b ∈ inode.blocks ↔ ∃ k ∈ inode.usedSlots, b ∈ (inode.iExtent k).blocks := by
  rw [blocks, List.mem_flatMap]

theorem blocks_of_empty (unused : inode.lastUsedExtent = -1) : inode.blocks = [] := by
  simp [blocks, usedSlots, unused]

theorem blocks_front (used : 0 ≤ inode.lastUsedExtent) :
    ∃ rest, inode.blocks = (inode.iExtent 0).blocks ++ rest ∧
      (rest = [] ∨ ∃ rest', rest = (inode.iExtent 1).blocks ++ rest') := by
  obtain ⟨m, slots⟩ : ∃ m, (inode.lastUsedExtent + 1).toNat = m + 1 :=
    ⟨inode.lastUsedExtent.toNat, by omega⟩
  rw [blocks, usedSlots, slots, List.range_succ_eq_map, List.flatMap_cons]
  refine ⟨_, rfl, ?_⟩
  cases m with
  | zero => exact .inl rfl
  | succ m =>
    rw [List.range_succ_eq_map, List.map_cons, List.flatMap_cons]
    exact .inr ⟨_, rfl⟩

theorem blocks_back (used : 0 ≤ inode.lastUsedExtent) :
    ∃ front, inode.blocks = front ++ (inode.iExtent inode.lastUsedExtent.toNat).blocks := by
  have next : (inode.lastUsedExtent + 1).toNat = inode.lastUsedExtent.toNat + 1 := by omega
  rw [blocks, usedSlots, next, List.range_succ, List.flatMap_append, List.flatMap_singleton]
  exact ⟨_, rfl⟩

theorem setExtent_other {k j : Nat} {extent : A1fsExtent} (differ : j ≠ k) :
    (inode.setExtent k extent).iExtent j = inode.iExtent j := if_neg differ

theorem setExtent_self {k : Nat} {extent : A1fsExtent} :
    (inode.setExtent k extent).iExtent k = extent := if_pos rfl

theorem blocks_appendExtent {extent : A1fsExtent} (low : -1 ≤ inode.lastUsedExtent) :
    (inode.appendExtent extent now).blocks = inode.blocks ++ extent.blocks := by
  have slots : (inode.appendExtent extent now).usedSlots =
      inode.usedSlots ++ [(inode.lastUsedExtent + 1).toNat] := by
    have next : (inode.lastUsedExtent + 1 + 1).toNat = (inode.lastUsedExtent + 1).toNat + 1 := by omega
    simp only [usedSlots, appendExtent, next, List.range_succ]
  have before (k : Nat) (member : k ∈ inode.usedSlots) :
      (inode.appendExtent extent now).iExtent k = inode.iExtent k := by
    apply setExtent_other
    rw [mem_usedSlots] at member
    omega
  have last : (inode.appendExtent extent now).iExtent (inode.lastUsedExtent + 1).toNat = extent :=
    setExtent_self
  rw [blocks, slots, List.flatMap_append, List.flatMap_singleton, last, blocks]
  congr 1
  exact List.flatMap_congr fun k member => by rw [before k member]

theorem blocks_extendLast {count : Nat} (low : 0 ≤ inode.lastUsedExtent) :
    (inode.extendLast count now).blocks = inode.blocks ++ List.range' inode.blockAfter count := by
  have slots : inode.usedSlots =
      List.range inode.lastUsedExtent.toNat ++ [inode.lastUsedExtent.toNat] := by
    have next : (inode.lastUsedExtent + 1).toNat = inode.lastUsedExtent.toNat + 1 := by omega
    rw [usedSlots, next, List.range_succ]
  have before (k : Nat) (member : k ∈ List.range inode.lastUsedExtent.toNat) :
      (inode.extendLast count now).iExtent k = inode.iExtent k := by
    apply setExtent_other
    rw [List.mem_range] at member
    omega
  have last : ((inode.extendLast count now).iExtent inode.lastUsedExtent.toNat).blocks =
      (inode.iExtent inode.lastUsedExtent.toNat).blocks ++ List.range' inode.blockAfter count := by
    rw [extendLast, A1fsExtent.blocks, setExtent_self, A1fsExtent.blocks, blockAfter,
      List.range'_append_1]
  have slots' : (inode.extendLast count now).usedSlots = inode.usedSlots := rfl
  rw [blocks, slots', slots, List.flatMap_append, List.flatMap_singleton, last, blocks, slots,
    List.flatMap_append, List.flatMap_singleton, List.append_assoc]
  congr 1
  exact List.flatMap_congr fun k member => by rw [before k member]

/-- The two inodes cover the same blocks, extent by extent, and are of the same kind. -/
structure SameExtents (inode inode' : A1fsInode) : Prop where
  mode : inode'.mode = inode.mode
  lastUsedExtent : inode'.lastUsedExtent = inode.lastUsedExtent
  lastUsedIndirect : inode'.lastUsedIndirect = inode.lastUsedIndirect
  start : ∀ k, (inode'.iExtent k).start = (inode.iExtent k).start
  count : ∀ k, (inode'.iExtent k).count = (inode.iExtent k).count

namespace SameExtents

theorem refl : inode.SameExtents inode := ⟨rfl, rfl, rfl, fun _ => rfl, fun _ => rfl⟩

theorem trans {inode'' : A1fsInode} (first : inode.SameExtents inode')
    (second : inode'.SameExtents inode'') : inode.SameExtents inode'' :=
  ⟨second.mode.trans first.mode, second.lastUsedExtent.trans first.lastUsedExtent,
    second.lastUsedIndirect.trans first.lastUsedIndirect,
    fun k => (second.start k).trans (first.start k),
    fun k => (second.count k).trans (first.count k)⟩

theorem usedSlots (same : inode.SameExtents inode') : inode'.usedSlots = inode.usedSlots := by
  rw [A1fsInode.usedSlots, A1fsInode.usedSlots, same.lastUsedExtent]

theorem blocks (same : inode.SameExtents inode') : inode'.blocks = inode.blocks := by
  rw [A1fsInode.blocks, A1fsInode.blocks, same.usedSlots]
  exact List.flatMap_congr fun k _ => by
    rw [A1fsExtent.blocks, A1fsExtent.blocks, same.start, same.count]

theorem setExtent_size {k : Nat} {size : Int} :
    inode.SameExtents (inode.setExtent k { inode.iExtent k with size := size }) := by
  refine ⟨rfl, rfl, rfl, fun j => ?_, fun j => ?_⟩
  · by_cases same : j = k
    · rw [same, setExtent_self]
    · rw [setExtent_other same]
  · by_cases same : j = k
    · rw [same, setExtent_self]
    · rw [setExtent_other same]

end SameExtents

end A1fsInode

namespace FsCtx

variable {fs fs' fs'' : FsCtx} {i j : Nat} {inode inode' : A1fsInode}

@[simp] theorem setInode_sb : (fs.setInode i inode).sb = fs.sb := rfl
@[simp] theorem setInode_size : (fs.setInode i inode).size = fs.size := rfl
@[simp] theorem setInode_inodeBits : (fs.setInode i inode).inodeBits = fs.inodeBits := rfl
@[simp] theorem setInode_blockBits : (fs.setInode i inode).blockBits = fs.blockBits := rfl
@[simp] theorem setInode_data : (fs.setInode i inode).data = fs.data := rfl
@[simp] theorem setInode_dataSize : (fs.setInode i inode).dataSize = fs.dataSize := rfl
@[simp] theorem setInode_self : (fs.setInode i inode).itable i = inode := if_pos rfl

theorem setInode_other (differ : j ≠ i) : (fs.setInode i inode).itable j = fs.itable j :=
  if_neg differ

@[simp] theorem setInode_setInode :
    (fs.setInode i inode).setInode i inode' = fs.setInode i inode' := by
  have table : (fun k => if k = i then inode' else if k = i then inode else fs.itable k) =
      fun k => if k = i then inode' else fs.itable k := by
    funext k
    split <;> rfl
  simp only [setInode, table]

def flipBlocks (fs : FsCtx) (l : List Nat) (flipType : Nat) : FsCtx :=
  { fs with
    blockBits := fs.blockBits.flipAll l
    sb := { fs.sb with
      sbFreeBlocksCount := countFlips flipType fs.sb.sbFreeBlocksCount l.length } }

@[simp] theorem flipBlocks_nil {flipType : Nat} : fs.flipBlocks [] flipType = fs := by
  simp [flipBlocks, countFlips]

@[simp] theorem flipBlocks_itable {l : List Nat} {flipType : Nat} :
    (fs.flipBlocks l flipType).itable = fs.itable := rfl

@[simp] theorem flipBlocks_data {l : List Nat} {flipType : Nat} :
    (fs.flipBlocks l flipType).data = fs.data := rfl

@[simp] theorem flipBlocks_blockBits {l : List Nat} {flipType : Nat} :
    (fs.flipBlocks l flipType).blockBits = fs.blockBits.flipAll l := rfl

@[simp] theorem flipBlocks_dataSize {l : List Nat} {flipType : Nat} :
    (fs.flipBlocks l flipType).dataSize = fs.dataSize := rfl

theorem setInode_flipBlocks {l : List Nat} {flipType : Nat} :
    ((fs.setInode i inode).flipBlocks l flipType).setInode i inode' =
      (fs.setInode i inode').flipBlocks l flipType :=
  (setInode_setInode : ((fs.flipBlocks l flipType).setInode i inode).setInode i inode' = _)

/-- Only the data region, the extents' sizes, the inode's own metadata and the count of
    directories change. -/
structure Touches (fs fs' : FsCtx) (i : Nat) : Prop where
  size : fs'.size = fs.size
  sb : { fs'.sb with sbUsedDirsCount := fs.sb.sbUsedDirsCount } = fs.sb
  inodeBits : fs'.inodeBits = fs.inodeBits
  blockBits : fs'.blockBits = fs.blockBits
  others : ∀ j, j ≠ i → fs'.itable j = fs.itable j
  inode : (fs.itable i).SameExtents (fs'.itable i)

namespace Touches

theorem refl : fs.Touches fs i := ⟨rfl, rfl, rfl, rfl, fun _ _ => rfl, .refl⟩

theorem trans (first : fs.Touches fs' i) (second : fs'.Touches fs'' i) : fs.Touches fs'' i :=
  ⟨second.size.trans first.size, by rw [← first.sb, ← second.sb], second.inodeBits.trans first.inodeBits,
    second.blockBits.trans first.blockBits,
    fun j differ => (second.others j differ).trans (first.others j differ),
    first.inode.trans second.inode⟩

theorem setInode (same : (fs.itable i).SameExtents inode) : fs.Touches (fs.setInode i inode) i :=
  ⟨rfl, rfl, rfl, rfl, fun _ differ => setInode_other differ, by simpa using same⟩

theorem setData {data : Bytes} : fs.Touches { fs with data := data } i :=
  ⟨rfl, rfl, rfl, rfl, fun _ _ => rfl, .refl⟩

theorem sameExtents (touches : fs.Touches fs' i) (j : Nat) :
    (fs.itable j).SameExtents (fs'.itable j) := by
  by_cases same : j = i
  · exact same ▸ touches.inode
  · rw [touches.others j same]
    exact .refl

end Touches

end FsCtx

end ExtentFs
