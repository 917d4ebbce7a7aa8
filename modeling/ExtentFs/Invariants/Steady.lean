import ExtentFs.Effects.Calls
import ExtentFs.Effects.Layout

namespace ExtentFs

open Base

/-- The sizes of the parts of the image, which no call changes. -/
structure FsCtx.SameSizes (fs fs' : FsCtx) : Prop where
  size : fs'.size = fs.size
  sbSize : fs'.sb.size = fs.sb.size
  firstDataBlock : fs'.sb.sbFirstDataBlock = fs.sb.sbFirstDataBlock
  firstEmptyDb : fs'.sb.sbFirstEmptyDb = fs.sb.sbFirstEmptyDb
  inodesCount : fs'.sb.sbInodesCount = fs.sb.sbInodesCount
  inodeBits : fs'.inodeBits.length = fs.inodeBits.length
  blockBits : fs'.blockBits.length = fs.blockBits.length

/-- What the sizes are after `mkfs`. -/
structure FsCtx.Shaped (fs : FsCtx) : Prop where
  firstEmptyDb : fs.sb.sbFirstEmptyDb = 0
  whole : fs.dataSize = 4096 * fs.dataBlocks
  some : 0 < fs.dataBlocks
  searched : (fs.dataBlocks : Int) ≤ fs.sb.maxIndex
  covered : fs.dataBlocks ≤ 8 * fs.blockBits.length
  inode : 0 < fs.sb.sbInodesCount
  fewInodes : fs.sb.sbInodesCount ≤ 16
  marks : fs.inodeBits.length = 4096

def FsCtx.freeBlocks (fs : FsCtx) : Finset Nat := fs.blockBits.clear fs.dataBlocks

/-- The bounds of an inode's metadata. -/
structure A1fsInode.Sane (inode : A1fsInode) : Prop where
  low : -1 ≤ inode.lastUsedExtent
  high : inode.lastUsedExtent < 12
  direct : inode.lastUsedIndirect = -1 ∨ inode.mode = 0#32

theorem A1fsInode.Sane.of_empty {inode : A1fsInode} (unused : inode.lastUsedExtent = -1)
    (direct : inode.lastUsedIndirect = -1) : inode.Sane :=
  ⟨by omega, by omega, .inl direct⟩

/-- What holds in every state, whatever the calls do to the blocks. -/
structure Steady (fs : FsCtx) : Prop where
  shaped : fs.Shaped
  sane : ∀ i, (fs.itable i).Sane
  counter : 0 ≤ fs.sb.sbFreeBlocksCount

namespace FsCtx

variable {fs fs' fs'' : FsCtx} {i : Nat}

namespace SameSizes

theorem refl : fs.SameSizes fs := ⟨rfl, rfl, rfl, rfl, rfl, rfl, rfl⟩

theorem trans (first : fs.SameSizes fs') (second : fs'.SameSizes fs'') : fs.SameSizes fs'' :=
  ⟨second.size.trans first.size, second.sbSize.trans first.sbSize,
    second.firstDataBlock.trans first.firstDataBlock, second.firstEmptyDb.trans first.firstEmptyDb,
    second.inodesCount.trans first.inodesCount, second.inodeBits.trans first.inodeBits,
    second.blockBits.trans first.blockBits⟩

theorem dataSize (same : fs.SameSizes fs') : fs'.dataSize = fs.dataSize := by
  rw [FsCtx.dataSize, FsCtx.dataSize, same.size, same.firstDataBlock]

theorem dataBlocks (same : fs.SameSizes fs') : fs'.dataBlocks = fs.dataBlocks := by
  rw [FsCtx.dataBlocks, FsCtx.dataBlocks, same.dataSize]

theorem maxIndex (same : fs.SameSizes fs') : fs'.sb.maxIndex = fs.sb.maxIndex := by
  rw [A1fsSuperblock.maxIndex, A1fsSuperblock.maxIndex, same.sbSize]

theorem shaped (same : fs.SameSizes fs') (shaped : fs.Shaped) : fs'.Shaped :=
  ⟨same.firstEmptyDb.trans shaped.firstEmptyDb,
    by rw [same.dataSize, same.dataBlocks, shaped.whole],
    by rw [same.dataBlocks]; exact shaped.some,
    by rw [same.dataBlocks, same.maxIndex]; exact shaped.searched,
    by rw [same.dataBlocks, same.blockBits]; exact shaped.covered,
    by rw [same.inodesCount]; exact shaped.inode,
    by rw [same.inodesCount]; exact shaped.fewInodes,
    same.inodeBits.trans shaped.marks⟩

theorem setInode {inode : A1fsInode} : fs.SameSizes (fs.setInode i inode) :=
  ⟨rfl, rfl, rfl, rfl, rfl, rfl, rfl⟩

theorem flipBlocks {l : List Nat} {flipType : Nat} : fs.SameSizes (fs.flipBlocks l flipType) :=
  ⟨rfl, rfl, rfl, rfl, rfl, rfl, Bitmap.flipAll_length⟩

theorem grown {inode : A1fsInode} {dbType : BlockType} : fs.SameSizes (fs.grown i inode dbType) := by
  cases dbType <;> exact ⟨rfl, rfl, rfl, rfl, rfl, rfl, rfl⟩

theorem touches (touches : fs.Touches fs' i) : fs.SameSizes fs' := by
  have sb := touches.sb
  exact ⟨touches.size, by rw [← sb], by rw [← sb], by rw [← sb], by rw [← sb],
    by rw [touches.inodeBits], by rw [touches.blockBits]⟩

theorem takeInode {mode : BitVec 32} {now : Timespec} : fs.SameSizes (fs.takeInode i mode now) :=
  ⟨rfl, rfl, rfl, rfl, rfl, rfl, rfl⟩

theorem dropInode {now : Timespec} : fs.SameSizes (fs.dropInode i now) :=
  ⟨rfl, rfl, rfl, rfl, rfl, rfl, rfl⟩

theorem creditBlock : fs.SameSizes fs.creditBlock := ⟨rfl, rfl, rfl, rfl, rfl, rfl, rfl⟩

end SameSizes

theorem Shaped.range (shaped : fs.Shaped) : (fs.sb.sbFirstEmptyDb : Int) ≤ fs.sb.maxIndex := by
  have some := shaped.some
  have searched := shaped.searched
  rw [shaped.firstEmptyDb]
  omega

end FsCtx

section Shapes

variable {blocks nInodes d : Nat} {now : Timespec}

variable (blocks nInodes d now) in
theorem formatted_dataBlocks :
    (formatted blocks nInodes d now).dataBlocks = blocks - (3 + d) := by
  simp only [FsCtx.dataBlocks, FsCtx.dataSize, formatted]
  omega

theorem Geometry.small (g : Geometry blocks nInodes d) : blocks < 2 ^ 31 := by
  have byte := g.fitsByte
  have covered := g.covered
  omega

theorem Geometry.shaped (g : Geometry blocks nInodes d) : (formatted blocks nInodes d now).Shaped := by
  have data := formatted_dataBlocks blocks nInodes d now
  have small := g.small
  obtain ⟨pos, few, someBitmap, byte, some, covered⟩ := g
  refine ⟨rfl, ?_, by omega, ?_, ?_, ?_, ?_, rfl⟩
  · rw [data]
    simp only [FsCtx.dataSize, formatted]
    omega
  · rw [data, A1fsSuperblock.maxIndex]
    simp only [formatted]
    have quotient : 4096 * blocks / 4096 = blocks := by omega
    rw [quotient, toInt_of_fits (by omega) (by omega)]
    omega
  · rw [data]
    simp only [formatted]
    omega
  · simp only [formatted]
    omega
  · simp only [formatted]
    omega

variable (blocks nInodes d now) in
theorem formatted_inode (i : Nat) : (formatted blocks nInodes d now).itable i = rootInode now ∨
    (formatted blocks nInodes d now).itable i = zeroInode := by
  simp only [formatted]
  split
  · exact .inl rfl
  · exact .inr rfl

variable (blocks nInodes d now) in
theorem formatted_blocks (i : Nat) : ((formatted blocks nInodes d now).itable i).blocks = [] := by
  rcases formatted_inode blocks nInodes d now i with root | zero
  · rw [root]
    exact A1fsInode.blocks_of_empty rfl
  · rw [zero]
    rfl

theorem zeroInode_fields : zeroInode.mode = 0#32 ∧ zeroInode.lastUsedExtent = 0 ∧
    (zeroInode.iExtent 0).count = 0 := by decide

theorem Geometry.steady (g : Geometry blocks nInodes d) : Steady (formatted blocks nInodes d now) := by
  refine ⟨g.shaped, fun i => ?_, ?_⟩
  · obtain ⟨mode, last, -⟩ := zeroInode_fields
    rcases formatted_inode blocks nInodes d now i with root | blank
    · rw [root]
      exact .of_empty rfl rfl
    · rw [blank]
      exact ⟨by omega, by omega, .inr mode⟩
  · simp only [formatted]
    omega

theorem formatted_marks (i : Nat) :
    (formatted blocks nInodes d now).inodeBits.test i = decide (i = 0) := by
  rw [Bitmap.test_eq_getLsbD]
  change (if i / 8 = 0 then 1#8 else 0#8).getLsbD (i % 8) = _
  by_cases low : i < 8
  · rw [if_pos (by omega), Nat.mod_eq_of_lt low, BitVec.getLsbD_one]
    rfl
  · rw [if_neg (by omega), decide_eq_false (by omega)]
    simp

end Shapes

section Live

variable {fs fs' : FsCtx} {i j : Nat} {mode : BitVec 32} {now : Timespec}

theorem live_iff : fs.live i = true ↔
    (i : Int) < fs.sb.sbInodesCount ∧ fs.inodeBits.test i = true := by
  rw [FsCtx.live, decide_eq_true_iff]

theorem FsCtx.Touches.live (touches : fs.Touches fs' i) : fs'.live j = fs.live j := by
  have sizes := FsCtx.SameSizes.touches touches
  simp only [FsCtx.live, sizes.inodesCount, touches.inodeBits]

theorem live_ne_free (live : fs.live j = true) (free : fs.inodeBits.test i = false) : j ≠ i := by
  obtain ⟨-, marked⟩ := live_iff.mp live
  rintro rfl
  rw [free] at marked
  cases marked

theorem takeInode_live (free : fs.inodeBits.test i = false) (live : fs.live j = true) :
    j ≠ i ∧ (fs.takeInode i mode now).live j = true := by
  obtain ⟨inside, marked⟩ := live_iff.mp live
  have differ := live_ne_free live free
  refine ⟨differ, live_iff.mpr ⟨inside, ?_⟩⟩
  change (fs.inodeBits.flip i).test j = true
  rw [Bitmap.test_flip, marked, decide_eq_false differ.symm]
  rfl

theorem takeInode_live_self (inside : (i : Int) < fs.sb.sbInodesCount)
    (free : fs.inodeBits.test i = false) : (fs.takeInode i mode now).live i = true := by
  refine live_iff.mpr ⟨inside, ?_⟩
  change (fs.inodeBits.flip i).test i = true
  rw [Bitmap.test_flip, free, decide_eq_true rfl]
  rfl

theorem dropInode_live (differ : j ≠ i) : (fs.dropInode i now).live j = fs.live j := by
  have same : (fs.inodeBits.flip i).test j = fs.inodeBits.test j := by
    rw [Bitmap.test_flip, decide_eq_false differ.symm, Bool.xor_false]
  change decide ((j : Int) < fs.sb.sbInodesCount ∧ (fs.inodeBits.flip i).test j = true) = _
  rw [same, FsCtx.live]

theorem takeInode_live_other (differ : j ≠ i) : (fs.takeInode i mode now).live j = fs.live j := by
  have dropped : (fs.dropInode i now).live j = fs.live j := dropInode_live differ
  exact dropped

end Live

namespace Steady

variable {fs fs' : FsCtx} {i : Nat}

theorem touch (steady : Steady fs) (touches : fs.Touches fs' i) : Steady fs' := by
  refine ⟨(FsCtx.SameSizes.touches touches).shaped steady.shaped, fun j => ?_, ?_⟩
  · have same := touches.sameExtents j
    have sane := steady.sane j
    exact ⟨by rw [same.lastUsedExtent]; exact sane.low, by rw [same.lastUsedExtent]; exact sane.high,
      by rw [same.lastUsedIndirect, same.mode]; exact sane.direct⟩
  · have sb := touches.sb
    have counter := steady.counter
    rw [← sb] at counter
    exact counter

theorem setInode (steady : Steady fs) {inode : A1fsInode} (sane : inode.Sane) :
    Steady (fs.setInode i inode) := by
  refine ⟨FsCtx.SameSizes.setInode.shaped steady.shaped, fun j => ?_, steady.counter⟩
  by_cases same : j = i
  · rw [same, FsCtx.setInode_self]
    exact sane
  · rw [FsCtx.setInode_other same]
    exact steady.sane j

theorem growth_sane (steady : Steady fs) {n start : Nat} {now : Timespec} {inode : A1fsInode}
    (growth : Growth fs i n now start inode) : inode.Sane := by
  have last := growth.last
  have sane := steady.sane i
  cases growth with
  | append => exact ⟨by omega, last.2, sane.direct⟩
  | attach => exact ⟨by omega, last.2, sane.direct⟩

theorem growth_enough (steady : Steady fs) {n start : Nat} {now : Timespec} {inode : A1fsInode}
    (growth : Growth fs i n now start inode) : (n : Int) ≤ fs.sb.sbFreeBlocksCount := by
  have enough (start : Nat) (found : getAvailableBit fs.sb fs.blockBits .data n = .ok (start : Int)) :
      (n : Int) ≤ fs.sb.sbFreeBlocksCount := by
    rcases getAvailableBit_data steady.shaped.range found with none | ⟨-, -, -, enough, -⟩
    · omega
    · exact enough
  cases growth with
  | append found => exact enough _ found
  | attach found => exact enough _ found

theorem take (steady : Steady fs) {l : List Nat} (enough : (l.length : Int) ≤ fs.sb.sbFreeBlocksCount) :
    Steady (fs.flipBlocks l 1) := by
  refine ⟨FsCtx.SameSizes.flipBlocks.shaped steady.shaped, steady.sane, ?_⟩
  simp only [FsCtx.flipBlocks, countFlips]
  split <;> omega

theorem release (steady : Steady fs) {l : List Nat} : Steady (fs.flipBlocks l 0) := by
  refine ⟨FsCtx.SameSizes.flipBlocks.shaped steady.shaped, steady.sane, ?_⟩
  have counter := steady.counter
  simp only [FsCtx.flipBlocks, countFlips, if_true]
  omega

theorem takeInode (steady : Steady fs) {mode : BitVec 32} {now : Timespec} :
    Steady (fs.takeInode i mode now) := by
  have set : Steady (fs.setInode i (createInode (fs.itable i) mode now)) :=
    steady.setInode (.of_empty rfl rfl)
  exact ⟨FsCtx.SameSizes.takeInode.shaped steady.shaped, set.sane, steady.counter⟩

theorem resetInode (steady : Steady fs) {now : Timespec} :
    Steady (fs.setInode i (ExtentFs.resetInode (fs.itable i) now)) :=
  steady.setInode (.of_empty rfl rfl)

theorem dropInode (steady : Steady fs) {now : Timespec} : Steady (fs.dropInode i now) := by
  have reset : Steady (fs.setInode i (ExtentFs.resetInode (fs.itable i) now)) := steady.resetInode
  exact ⟨FsCtx.SameSizes.dropInode.shaped steady.shaped, reset.sane, steady.counter⟩

theorem clearDentry (steady : Steady fs) {p addr : Nat} {dirs : Int} {now : Timespec} :
    Steady (ExtentFs.clearDentry fs p addr dirs now) := by
  have counter := steady.counter
  have credited : Steady fs.creditBlock :=
    ⟨FsCtx.SameSizes.creditBlock.shaped steady.shaped, steady.sane, by
      simp only [FsCtx.creditBlock]; omega⟩
  exact credited.touch clearDentry_touches

theorem addsBlock (steady : Steady fs) {now : Timespec} (added : fs.AddsBlock i now fs') : Steady fs' := by
  obtain ⟨block, inode, growth, -, rfl⟩ := added
  have enough := steady.growth_enough growth
  have set : Steady (fs.grown i inode .directory) :=
    (steady.setInode (steady.growth_sane growth)).touch (i := i) .setData
  exact set.take (by simpa [grown_sb] using enough)

/-- The blocks that an inode gets without extending its last extent were not marked. -/
theorem growth_clear (steady : Steady fs) {n start : Nat} {now : Timespec} {inode : A1fsInode}
    (growth : Growth fs i n now start inode) (fresh : fs.attaches i n = false)
    (inside : ∀ b ∈ List.range' start n, b < fs.dataBlocks) :
    ∀ b ∈ List.range' start n, fs.blockBits.test b = false := by
  cases growth with
  | attach _ taken => rw [fresh] at taken; cases taken
  | append found =>
    rcases getAvailableBit_data steady.shaped.range found with none | ⟨first, same, -, -, run | full⟩
    · omega
    · obtain rfl : start = first := by omega
      rw [Int.toNat_natCast] at run
      exact run
    · intro b member
      have searched := steady.shaped.searched
      have below := inside start (by rw [List.mem_range'_1]; omega)
      omega

/-- A directory block that is not put behind an old one lies in the data region, at an address that an `int`
    holds. -/
theorem addsBlock_inside (steady : Steady fs) {now : Timespec} (fresh : fs.attaches i 1 = false)
    (added : fs.AddsBlock i now fs') :
    ∃ block inode, Growth fs i 1 now block inode ∧ (block < fs.dataBlocks ∧ 4096 * block < 2 ^ 31) ∧
      fs' = (fs.grown i inode .directory).flipBlocks [block] 1 := by
  obtain ⟨block, inode, growth, entries, result⟩ := added
  refine ⟨block, inode, growth, ?_, result⟩
  have start : (inode.iExtent inode.lastUsedExtent.toNat).start = block := by
    cases growth with
    | attach _ taken => rw [fresh] at taken; cases taken
    | append =>
      simp only [A1fsInode.appendExtent]
      rw [A1fsInode.setExtent_self]
  have whole := steady.shaped.whole
  rw [FsCtx.EntriesInside, start] at entries
  omega

theorem mayAdd (steady : Steady fs) {now : Timespec} {needed : Prop}
    (added : fs.MayAdd i now needed fs') : Steady fs' := by
  rcases added with ⟨-, rfl⟩ | ⟨-, added⟩
  · exact steady
  · exact steady.addsBlock added

theorem shrunk (steady : Steady fs) {size : Int} : (shrunkInode (fs.itable i) size).Sane := by
  have sane := steady.sane i
  rw [shrunkInode]
  split
  · exact .of_empty rfl rfl
  · exact ⟨sane.low, sane.high, sane.direct⟩

theorem resized (steady : Steady fs) {size : Int} {now : Timespec}
    (effect : Resized fs i size now fs') : Steady fs' := by
  cases effect with
  | touched touches => exact steady.touch touches
  | grown blocks growth bits inside touches =>
    have enough := steady.growth_enough growth
    exact ((steady.setInode (steady.growth_sane growth)).take (by simpa using enough)).touch touches
  | shrunk shrinks bits touches => exact (steady.setInode steady.shrunk).release.touch touches

theorem removed (steady : Steady fs) {path : CString} {ino : Nat} {now : Timespec}
    (effect : Removed fs path ino now fs') : Steady fs' := by
  cases effect with
  | unmarked clear result => exact result ▸ steady.resetInode
  | dropped marked result => exact result ▸ steady.dropInode
  | cleared marked walk inside search result => exact result ▸ steady.dropInode.clearDentry

theorem effect (steady : Steady fs) {env : Env} {call : Call} (effect : Effect fs env call fs') :
    Steady fs' := by
  cases effect with
  | unchanged same => exact same ▸ steady
  | taken new free result => exact result ▸ steady.takeInode
  | entered new free walk inside added search write =>
    exact (steady.takeInode.mayAdd added).touch (writeDentry_touches write)
  | resized walk inside asked effect => exact steady.resized effect
  | written walk inside touches => exact steady.touch touches
  | stopped unlinks walk inside stops result => exact result ▸ steady.release
  | removed removes walk inside passes bits effect => exact steady.release.removed effect

theorem step_effect (steady : Steady fs) {event : Event} (step : a1fs.Step fs event fs') :
    Effect fs event.env event.call fs' := by
  obtain ⟨fuel, returned⟩ := step
  exact Call.exec_effect steady.shaped.range returned

theorem step (steady : Steady fs) {event : Event} (step : a1fs.Step fs event fs') : Steady fs' :=
  steady.effect (steady.step_effect step)

end Steady

/-- Every state that a run reaches is steady, with no condition on the calls. -/
theorem steady_of_reaches {fs : FsCtx} {guard : FsCtx → Event → Prop}
    (run : a1fs.Reaches guard fs) : Steady fs := by
  refine run.invariant Steady (fun s start => ?_) fun s l t steady _ step => steady.step step
  obtain ⟨blocks, nInodes, d, now, g, rfl⟩ := Initial.shape start
  exact g.steady

section Runs

variable {fs : FsCtx} {guard : FsCtx → Event → Prop} {P : FsCtx → Prop}

/-- The run rule of the file system: what holds after `mkfs` and passes from one steady state to
    the next. -/
theorem invariant_of_steady (run : a1fs.Reaches guard fs)
    (base : ∀ {blocks nInodes d now}, Geometry blocks nInodes d → P (formatted blocks nInodes d now))
    (preserve : ∀ {fs event fs'}, Steady fs → P fs → guard fs event → a1fs.Step fs event fs' → P fs') :
    P fs := by
  refine run.relative (fun t => steady_of_reaches) P (fun s start => ?_)
    fun s event t steady holds allowed step => preserve steady holds allowed step
  obtain ⟨blocks, nInodes, d, now, g, rfl⟩ := Initial.shape start
  exact base g

end Runs

end ExtentFs
