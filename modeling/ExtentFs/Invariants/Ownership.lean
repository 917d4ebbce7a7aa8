import ExtentFs.Base.Ownership
import ExtentFs.Invariants.Steady

namespace ExtentFs

open Base

/-- No block is covered twice; covered blocks lie in the data region and are marked as used. -/
structure Owned (fs : FsCtx) : Prop where
  exclusive : Exclusive fun i => (fs.itable i).blocks
  inside : ∀ i, ∀ b ∈ (fs.itable i).blocks, b < fs.dataBlocks
  used : ∀ i, ∀ b ∈ (fs.itable i).blocks, fs.blockBits.test b = true

namespace Owned

variable {fs fs' : FsCtx} {i : Nat} {l : List Nat}

theorem same (own : Owned fs) (blocks : ∀ j, (fs'.itable j).blocks = (fs.itable j).blocks)
    (bits : fs'.blockBits = fs.blockBits) (sizes : fs'.dataBlocks = fs.dataBlocks) : Owned fs' := by
  refine ⟨own.exclusive.shrink fun j => ?_, fun j b member => ?_, fun j b member => ?_⟩
  · rw [blocks j]
  · rw [sizes]
    exact own.inside j b (blocks j ▸ member)
  · rw [bits]
    exact own.used j b (blocks j ▸ member)

theorem touch (own : Owned fs) (touches : fs.Touches fs' i) : Owned fs' :=
  own.same (fun j => (touches.sameExtents j).blocks) touches.blockBits
    (FsCtx.SameSizes.touches touches).dataBlocks

theorem grow (own : Owned fs) (gains : (fs'.itable i).blocks = (fs.itable i).blocks ++ l)
    (others : ∀ j, j ≠ i → (fs'.itable j).blocks = (fs.itable j).blocks)
    (bits : fs'.blockBits = fs.blockBits.flipAll l) (sizes : fs'.dataBlocks = fs.dataBlocks)
    (nodup : l.Nodup) (inside : ∀ b ∈ l, b < fs.dataBlocks)
    (clear : ∀ b ∈ l, fs.blockBits.test b = false) : Owned fs' := by
  have unowned (j : Nat) : (fs.itable j).blocks.Disjoint l := by
    intro b mine fresh
    have set := own.used j b mine
    rw [clear b fresh] at set
    cases set
  have member (j b : Nat) (covered : b ∈ (fs'.itable j).blocks) : b ∈ (fs.itable j).blocks ∨ b ∈ l := by
    by_cases same : j = i
    · rw [same, gains, List.mem_append] at covered
      exact same ▸ covered
    · rw [others j same] at covered
      exact .inl covered
  refine ⟨own.exclusive.give nodup unowned gains others, fun j b covered => ?_, fun j b covered => ?_⟩
  · rw [sizes]
    rcases member j b covered with old | fresh
    · exact own.inside j b old
    · exact inside b fresh
  · rw [bits, Bitmap.test_flipAll nodup]
    rcases member j b covered with old | fresh
    · have absent : b ∉ l := unowned j old
      simp [own.used j b old, absent]
    · simp [clear b fresh, fresh]

/-- One inode gives up all its blocks; only bits of these are flipped. -/
theorem giveBack (own : Owned fs) (gone : (fs'.itable i).blocks = [])
    (others : ∀ j, j ≠ i → (fs'.itable j).blocks = (fs.itable j).blocks)
    (bits : fs'.blockBits = fs.blockBits.flipAll l) (mine : l ⊆ (fs.itable i).blocks)
    (sizes : fs'.dataBlocks = fs.dataBlocks) : Owned fs' := by
  have other (j b : Nat) (covered : b ∈ (fs'.itable j).blocks) :
      j ≠ i ∧ b ∈ (fs.itable j).blocks := by
    have differ : j ≠ i := by
      rintro rfl
      rw [gone] at covered
      cases covered
    rw [others j differ] at covered
    exact ⟨differ, covered⟩
  refine ⟨own.exclusive.drop gone others, fun j b covered => ?_, fun j b covered => ?_⟩
  · rw [sizes]
    exact own.inside j b (other j b covered).2
  · obtain ⟨differ, old⟩ := other j b covered
    have absent : b ∉ l := fun flipped => own.exclusive.apart j i differ old (mine flipped)
    rw [bits, Bitmap.test_flipAll_of_not_mem absent]
    exact own.used j b old

theorem setInode_blocks {inode : A1fsInode} {j : Nat} (differ : j ≠ i) :
    ((fs.setInode i inode).itable j).blocks = (fs.itable j).blocks := by
  rw [FsCtx.setInode_other differ]

theorem emptied (own : Owned fs) {inode : A1fsInode} (unused : inode.lastUsedExtent = -1)
    {flipType : Nat} (mine : l ⊆ (fs.itable i).blocks) :
    Owned ((fs.setInode i inode).flipBlocks l flipType) := by
  refine own.giveBack (i := i) ?_ (fun _ => setInode_blocks) rfl mine rfl
  rw [FsCtx.flipBlocks_itable, FsCtx.setInode_self]
  exact A1fsInode.blocks_of_empty unused

theorem takeInode (own : Owned fs) {mode : BitVec 32} {now : Timespec} :
    Owned (fs.takeInode i mode now) := by
  have empty : ((fs.takeInode i mode now).itable i).blocks = [] := by
    change ((fs.setInode i _).itable i).blocks = []
    rw [FsCtx.setInode_self]
    exact A1fsInode.blocks_of_empty rfl
  exact own.giveBack (l := []) empty (fun _ => setInode_blocks) rfl (List.nil_subset _) rfl

theorem grown (own : Owned fs) (steady : Steady fs) {n start : Nat} {now : Timespec}
    {inode : A1fsInode} (growth : Growth fs i n now start inode) (fresh : fs.attaches i n = false)
    (inside : ∀ b ∈ List.range' start n, b < fs.dataBlocks) :
    Owned ((fs.setInode i inode).flipBlocks (List.range' start n) 1) :=
  own.grow (i := i) (by rw [FsCtx.flipBlocks_itable, FsCtx.setInode_self, growth.blocks])
    (fun _ => setInode_blocks) rfl rfl List.nodup_range' inside
    (steady.growth_clear growth fresh inside)

theorem addsBlock (own : Owned fs) (steady : Steady fs) {now : Timespec}
    (fresh : fs.attaches i 1 = false) (added : fs.AddsBlock i now fs') : Owned fs' := by
  obtain ⟨block, inode, growth, inside, rfl⟩ := steady.addsBlock_inside fresh added
  have inside' : ∀ b ∈ List.range' block 1, b < fs.dataBlocks := by simpa using inside.1
  exact (own.grown steady growth fresh inside').touch (i := i) .setData

end Owned

end ExtentFs
