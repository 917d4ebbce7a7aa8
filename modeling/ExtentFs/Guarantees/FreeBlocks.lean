import ExtentFs.Invariants.Conditions
import ExtentFs.Invariants.Steady

namespace ExtentFs

open Base

/-- The superblock and `a1fs_statfs` count the clear bits. -/
def BlocksCounted (fs : FsCtx) : Prop :=
  fs.sb.sbFreeBlocksCount = fs.freeBlocks.card ∧ (a1fsStatfs fs).fBfree = fs.freeBlocks.card ∧
    (a1fsStatfs fs).fBavail = fs.freeBlocks.card ∧ fs.freeBlocks.card ≤ fs.dataBlocks

/-- Distinct blocks of the data region, all marked as used. -/
def FsCtx.Releasable (fs : FsCtx) (l : List Nat) : Prop :=
  l.Nodup ∧ ∀ b ∈ l, b < fs.dataBlocks ∧ fs.blockBits.test b = true

instance (fs : FsCtx) (l : List Nat) : Decidable (fs.Releasable l) :=
  inferInstanceAs (Decidable (_ ∧ _))

/-- A shrinking clears distinct bits that are set. -/
def ShrinksMarked (fs : FsCtx) (event : Event) : Prop :=
  OnResize fs event.call fun i size =>
    Shrinks (fs.itable i) size → fs.Releasable (releasedBlocks (fs.itable i) size)

/-- `a1fs_unlink` gives up after it has cleared distinct bits that were set. -/
def UnlinkGivesUp (fs : FsCtx) (event : Event) : Prop :=
  OnUnlink fs event.call fun i => ∃ k ∈ (fs.itable i).usedSlots, StopsFirst fs i k ∧
    fs.Releasable ((fs.itable i).slotBlocks (List.range k))

def RmdirRefused (fs : FsCtx) (event : Event) : Prop :=
  OnRmdir fs event.call fun i => (fs.itable i).numEntries ≠ 0

instance (fs : FsCtx) (event : Event) : Decidable (ShrinksMarked fs event) :=
  inferInstanceAs (Decidable (OnResize _ _ _))

instance (fs : FsCtx) (event : Event) : Decidable (UnlinkGivesUp fs event) :=
  inferInstanceAs (Decidable (OnUnlink _ _ _))

instance (fs : FsCtx) (event : Event) : Decidable (RmdirRefused fs event) :=
  inferInstanceAs (Decidable (OnRmdir _ _ _))

structure KeepsCount (fs : FsCtx) (event : Event) : Prop where
  documented : Documented fs event.call
  findsSlot : FindsSlot fs event
  growsApart : GrowsApart fs event
  shrinksMarked : ShrinksMarked fs event
  unlinkGivesUp : UnlinkGivesUp fs event
  rmdirRefused : RmdirRefused fs event

instance (fs : FsCtx) (event : Event) : Decidable (KeepsCount fs event) :=
  decidable_of_iff (Documented fs event.call ∧ FindsSlot fs event ∧ GrowsApart fs event ∧
      ShrinksMarked fs event ∧ UnlinkGivesUp fs event ∧ RmdirRefused fs event)
    ⟨fun ⟨a, b, c, d, e, f⟩ => ⟨a, b, c, d, e, f⟩, fun ⟨a, b, c, d, e, f⟩ => ⟨a, b, c, d, e, f⟩⟩

def Counted (fs : FsCtx) : Prop := fs.sb.sbFreeBlocksCount = fs.freeBlocks.card

namespace Counted

variable {fs fs' : FsCtx} {i : Nat} {l : List Nat}

theorem touch (counted : Counted fs) (touches : fs.Touches fs' i) : Counted fs' := by
  have sizes := (FsCtx.SameSizes.touches touches).dataBlocks
  have sb := touches.sb
  rw [Counted, FsCtx.freeBlocks, ← sb] at counted
  rw [Counted, FsCtx.freeBlocks, touches.blockBits, sizes]
  exact counted

theorem setInode (counted : Counted fs) {inode : A1fsInode} : Counted (fs.setInode i inode) := counted

theorem take (counted : Counted fs) (nodup : l.Nodup) (inside : ∀ b ∈ l, b < fs.dataBlocks)
    (clear : ∀ b ∈ l, fs.blockBits.test b = false) : Counted (fs.flipBlocks l 1) := by
  have taken := Bitmap.clear_flipAll_of_clear nodup inside clear
  change countFlips 1 fs.sb.sbFreeBlocksCount l.length =
    ((fs.blockBits.flipAll l).clear fs.dataBlocks).card
  rw [Counted, FsCtx.freeBlocks] at counted
  simp only [countFlips, Nat.one_ne_zero, if_false]
  omega

theorem release (counted : Counted fs) (releasable : fs.Releasable l) :
    Counted (fs.flipBlocks l 0) := by
  have freed := Bitmap.clear_flipAll_of_set releasable.1 (fun b member => (releasable.2 b member).1)
    fun b member => (releasable.2 b member).2
  change countFlips 0 fs.sb.sbFreeBlocksCount l.length =
    ((fs.blockBits.flipAll l).clear fs.dataBlocks).card
  rw [Counted, FsCtx.freeBlocks] at counted
  simp only [countFlips, if_true]
  omega

theorem takeInode (counted : Counted fs) {mode : BitVec 32} {now : Timespec} :
    Counted (fs.takeInode i mode now) := counted

theorem grown (counted : Counted fs) (steady : Steady fs) {n start : Nat} {now : Timespec}
    {inode : A1fsInode} (growth : Growth fs i n now start inode) (fresh : fs.attaches i n = false)
    (inside : ∀ b ∈ List.range' start n, b < fs.dataBlocks) :
    Counted ((fs.setInode i inode).flipBlocks (List.range' start n) 1) :=
  counted.setInode.take List.nodup_range' inside (steady.growth_clear growth fresh inside)

theorem addsBlock (counted : Counted fs) (steady : Steady fs) {now : Timespec}
    (fresh : fs.attaches i 1 = false) (added : fs.AddsBlock i now fs') : Counted fs' := by
  obtain ⟨block, inode, growth, inside, rfl⟩ := steady.addsBlock_inside fresh added
  have inside' : ∀ b ∈ List.range' block 1, b < fs.dataBlocks := by simpa using inside.1
  exact (counted.grown steady growth fresh inside').touch (i := i) .setData

theorem resized (counted : Counted fs) (steady : Steady fs) {size : Int} {now : Timespec}
    (apart : fs.attaches i (growthBlocks (fs.itable i) size) = false)
    (marked : Shrinks (fs.itable i) size → fs.Releasable (releasedBlocks (fs.itable i) size))
    (effect : Resized fs i size now fs') : Counted fs' := by
  cases effect with
  | touched touches => exact counted.touch touches
  | grown blocks growth bits inside touches =>
    rw [blocks] at apart
    refine (counted.grown steady growth apart fun b member => ?_).touch touches
    have room := inside apart b member
    rw [steady.shaped.whole] at room
    omega
  | shrunk shrinks bits touches =>
    exact (counted.setInode.release (marked shrinks)).touch touches

theorem effect (counted : Counted fs) (steady : Steady fs) {event : Event}
    (keeps : KeepsCount fs event) (effect : Effect fs event.env event.call fs') : Counted fs' := by
  cases effect with
  | unchanged same => exact same ▸ counted
  | taken new free result => exact result ▸ counted.takeInode
  | entered new free walk inside added search write =>
    have apart := keeps.growsApart.2.holds new free walk
    refine Counted.touch ?_ (writeDentry_touches write)
    rcases added with ⟨-, rfl⟩ | ⟨needed, added⟩
    · exact counted.takeInode
    · exact counted.takeInode.addsBlock steady.takeInode (apart needed) added
  | resized walk inside asked effect =>
    exact counted.resized steady (keeps.growsApart.1.holds walk asked)
      (keeps.shrinksMarked.holds walk asked) effect
  | written walk inside touches => exact counted.touch touches
  | @stopped _ _ k unlinks walk inside stops result =>
    have givesUp := keeps.unlinkGivesUp
    rw [UnlinkGivesUp, unlinks] at givesUp
    obtain ⟨k', -, stops', releasable⟩ := givesUp.holds walk
    obtain rfl : k = k' := by
      rcases Nat.lt_trichotomy k k' with before | same | after
      · exact absurd stops.1 (stops'.2 k before)
      · exact same
      · exact absurd stops'.1 (stops.2 k' after)
    exact result ▸ counted.release releasable
  | removed removes walk inside passes bits effect =>
    exfalso
    rcases removes with ⟨path, unlinks⟩ | ⟨⟨path, removes⟩, empty⟩
    · have givesUp := keeps.unlinkGivesUp
      rw [UnlinkGivesUp, unlinks] at givesUp
      rw [unlinks] at walk
      obtain ⟨k, -, stops, -⟩ := givesUp.holds walk
      exact passes path unlinks k stops.1
    · have refused := keeps.rmdirRefused
      rw [RmdirRefused, removes] at refused
      rw [removes] at walk
      exact refused.holds walk empty

theorem blocksCounted (counted : Counted fs) (steady : Steady fs) : BlocksCounted fs := by
  have bound : fs.freeBlocks.card ≤ fs.dataBlocks := Bitmap.clear_card_le
  have small := steady.shaped.searched
  have narrow := (toInt_bounds (fs.sb.size / 4096 : Nat)).2
  rw [A1fsSuperblock.maxIndex] at small
  have exact_ : toUlong fs.sb.sbFreeBlocksCount = fs.freeBlocks.card := by
    rw [counted, toUlong]
    generalize toInt (fs.sb.size / 4096 : Nat) = total at *
    omega
  exact ⟨counted, exact_, exact_, bound⟩

end Counted

theorem Geometry.counted {blocks nInodes d : Nat} {now : Timespec} :
    Counted (formatted blocks nInodes d now) := by
  have all : (formatted blocks nInodes d now).freeBlocks =
      Finset.range (formatted blocks nInodes d now).dataBlocks := by
    ext b
    rw [FsCtx.freeBlocks, Bitmap.mem_clear, Finset.mem_range]
    apply and_iff_left
    simp [formatted, Bitmap.test]
  rw [Counted, all, Finset.card_range, formatted_dataBlocks]
  rfl

theorem free_blocks_counted {fs : FsCtx} (run : a1fs.Reaches KeepsCount fs) : BlocksCounted fs := by
  have counted : Counted fs := by
    refine invariant_of_steady run (fun _ => Geometry.counted) ?_
    intro s event t steady counted keeps step
    exact counted.effect steady keeps (steady.step_effect step)
  exact counted.blocksCounted (steady_of_reaches run)

def countedRun : Option FsCtx :=
  runCalls KeepsCount quiet 10 device
    [.create pathA regularMode, .truncate pathA 9000, .truncate pathA 0, .truncate pathA 5000,
      .truncate pathA 100]

theorem free_blocks_counted_run : ∃ fs, countedRun = some fs ∧ BlocksCounted fs := by
  have returns : countedRun.isSome = true := by decide +kernel
  obtain ⟨fs, run⟩ := Option.isSome_iff_exists.mp returns
  exact ⟨fs, run, free_blocks_counted (runCalls_reaches (.initial device_initial) run)⟩

/-- Every unlinking counts one free block too many, at last more than there are blocks. -/
def creditedRun : Option FsCtx :=
  runCalls (fun fs event => Documented fs event.call) quiet 10 device
    [.create pathA regularMode, .unlink pathA, .create pathA regularMode, .unlink pathA]

theorem free_blocks_counted_fails :
    ∃ fs, a1fs.Reaches (fun fs event => Documented fs event.call) fs ∧ ¬ BlocksCounted fs := by
  have credited : ∃ fs ∈ creditedRun, (fs.dataBlocks : Int) < fs.sb.sbFreeBlocksCount := by decide +kernel
  obtain ⟨fs, run, more⟩ := credited
  refine ⟨fs, runCalls_reaches (.initial device_initial) run, fun correct => ?_⟩
  obtain ⟨counted, -, -, bound⟩ := correct
  omega

end ExtentFs
