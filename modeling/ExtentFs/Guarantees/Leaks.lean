import ExtentFs.Invariants.Conditions
import ExtentFs.Invariants.Steady

namespace ExtentFs

open Base

/-- Every set bit of the data bitmap belongs to a block of a live inode. When only the root
    is live, it belongs to a block of the root. -/
def NothingLeaked (fs : FsCtx) : Prop :=
  (∀ b, fs.blockBits.test b = true → ∃ i, fs.live i = true ∧
    ∃ k ∈ (fs.itable i).usedSlots, b ∈ ((fs.itable i).iExtent k).blocks) ∧
  ((∀ i, fs.live i = true → i = 0) →
    ∀ b, fs.blockBits.test b = true → b ∈ (fs.itable 0).blocks)

def FsCtx.Marked (fs : FsCtx) (i : Nat) : Prop :=
  (fs.itable i).blocks.Nodup ∧ ∀ b ∈ (fs.itable i).blocks, fs.blockBits.test b = true

instance (fs : FsCtx) (i : Nat) : Decidable (fs.Marked i) :=
  inferInstanceAs (Decidable (_ ∧ _))

/-- A file that gets blocks or gives up some of them is live; one that gives up everything
    releases all its blocks, which are distinct and marked. -/
def ResizesLive (fs : FsCtx) (event : Event) : Prop :=
  OnResize fs event.call fun i size =>
    (0 < growthBlocks (fs.itable i) size → fs.live i = true) ∧
    (Shrinks (fs.itable i) size → if size = 0
      then fs.Marked i ∧ (fs.itable i).blocks.length ≤ (releasedBlocks (fs.itable i) 0).length
      else fs.live i = true)

/-- A directory that gets a block is live. -/
def EntersLive (fs : FsCtx) (event : Event) : Prop :=
  OnEntry fs event.env event.call fun fs _ p =>
    fs.findIno (fs.itable p) (-1) = .ok none → fs.live p = true

/-- The blocks of an unlinked file are distinct and marked. -/
def UnlinksMarked (fs : FsCtx) (event : Event) : Prop :=
  OnUnlink fs event.call fun i => fs.Marked i

/-- A removed directory has no blocks. -/
def RmdirBare (fs : FsCtx) (event : Event) : Prop :=
  OnRmdir fs event.call fun i => (fs.itable i).numEntries ≠ 0 ∨ (fs.itable i).blocks = []

instance (fs : FsCtx) (event : Event) : Decidable (ResizesLive fs event) :=
  inferInstanceAs (Decidable (OnResize _ _ _))

instance (fs : FsCtx) (event : Event) : Decidable (EntersLive fs event) :=
  inferInstanceAs (Decidable (OnEntry _ _ _ _))

instance (fs : FsCtx) (event : Event) : Decidable (UnlinksMarked fs event) :=
  inferInstanceAs (Decidable (OnUnlink _ _ _))

instance (fs : FsCtx) (event : Event) : Decidable (RmdirBare fs event) :=
  inferInstanceAs (Decidable (OnRmdir _ _ _))

structure LeaksNothing (fs : FsCtx) (event : Event) : Prop where
  documented : Documented fs event.call
  findsSlot : FindsSlot fs event
  resizesLive : ResizesLive fs event
  entersLive : EntersLive fs event
  unlinksMarked : UnlinksMarked fs event
  rmdirBare : RmdirBare fs event

instance (fs : FsCtx) (event : Event) : Decidable (LeaksNothing fs event) :=
  decidable_of_iff (Documented fs event.call ∧ FindsSlot fs event ∧ ResizesLive fs event ∧
      EntersLive fs event ∧ UnlinksMarked fs event ∧ RmdirBare fs event)
    ⟨fun ⟨a, b, c, d, e, f⟩ => ⟨a, b, c, d, e, f⟩, fun ⟨a, b, c, d, e, f⟩ => ⟨a, b, c, d, e, f⟩⟩

def Covered (fs : FsCtx) : Prop :=
  ∀ b, fs.blockBits.test b = true → ∃ i, fs.live i = true ∧ b ∈ (fs.itable i).blocks

def CoveredBut (fs : FsCtx) (i : Nat) : Prop :=
  ∀ b, fs.blockBits.test b = true → ∃ j, j ≠ i ∧ fs.live j = true ∧ b ∈ (fs.itable j).blocks

namespace Covered

variable {fs fs' : FsCtx} {i : Nat} {l : List Nat}

theorem touch (covered : Covered fs) (touches : fs.Touches fs' i) : Covered fs' := by
  intro b set
  rw [touches.blockBits] at set
  obtain ⟨j, live, member⟩ := covered b set
  refine ⟨j, by rw [touches.live, live], ?_⟩
  rw [(touches.sameExtents j).blocks]
  exact member

theorem takeInode (covered : Covered fs) (free : fs.inodeBits.test i = false) {mode : BitVec 32}
    {now : Timespec} : Covered (fs.takeInode i mode now) := by
  intro b set
  obtain ⟨j, live, member⟩ := covered b set
  obtain ⟨differ, live'⟩ := takeInode_live free live
  refine ⟨j, live', ?_⟩
  change b ∈ ((fs.setInode i _).itable j).blocks
  rwa [FsCtx.setInode_other differ]

theorem extend (covered : Covered fs) {inode : A1fsInode} {flipType : Nat} (live : fs.live i = true)
    (keeps : (fs.itable i).blocks ⊆ inode.blocks) (covers : l ⊆ inode.blocks) :
    Covered ((fs.setInode i inode).flipBlocks l flipType) := by
  intro b set
  by_cases flipped : b ∈ l
  · refine ⟨i, live, ?_⟩
    rw [FsCtx.flipBlocks_itable, FsCtx.setInode_self]
    exact covers flipped
  · change (fs.blockBits.flipAll l).test b = true at set
    rw [Bitmap.test_flipAll_of_not_mem flipped] at set
    obtain ⟨j, live', member⟩ := covered b set
    refine ⟨j, live', ?_⟩
    rw [FsCtx.flipBlocks_itable]
    by_cases same : j = i
    · rw [same, FsCtx.setInode_self]
      exact keeps (same ▸ member)
    · rwa [FsCtx.setInode_other same]

theorem clearBits (covered : Covered fs) {flipType : Nat} (nodup : l.Nodup)
    (marked : ∀ b ∈ l, fs.blockBits.test b = true) : Covered (fs.flipBlocks l flipType) := by
  intro b set
  change (fs.blockBits.flipAll l).test b = true at set
  by_cases flipped : b ∈ l
  · rw [Bitmap.test_flipAll nodup, marked b flipped, decide_eq_true flipped] at set
    cases set
  · rw [Bitmap.test_flipAll_of_not_mem flipped] at set
    exact covered b set

theorem release (covered : Covered fs) {flipType : Nat} (marked : fs.Marked i)
    (all : ∀ b, b ∈ l ↔ b ∈ (fs.itable i).blocks) (nodup : l.Nodup) :
    CoveredBut (fs.flipBlocks l flipType) i := by
  intro b set
  change (fs.blockBits.flipAll l).test b = true at set
  by_cases flipped : b ∈ l
  · rw [Bitmap.test_flipAll nodup, marked.2 b ((all b).mp flipped), decide_eq_true flipped] at set
    cases set
  · rw [Bitmap.test_flipAll_of_not_mem flipped] at set
    obtain ⟨j, live, member⟩ := covered b set
    refine ⟨j, ?_, live, member⟩
    rintro rfl
    exact flipped ((all b).mpr member)

end Covered

namespace CoveredBut

variable {fs fs' : FsCtx} {i : Nat} {l : List Nat}

theorem setInode (covered : CoveredBut fs i) {inode : A1fsInode} : Covered (fs.setInode i inode) := by
  intro b set
  obtain ⟨j, differ, live, member⟩ := covered b set
  refine ⟨j, live, ?_⟩
  rwa [FsCtx.setInode_other differ]

theorem setInode_flipBlocks {flipType : Nat} (covered : CoveredBut (fs.flipBlocks l flipType) i)
    {inode : A1fsInode} : Covered ((fs.setInode i inode).flipBlocks l flipType) :=
  covered.setInode

theorem dropInode (covered : CoveredBut fs i) {now : Timespec} : Covered (fs.dropInode i now) := by
  intro b set
  obtain ⟨j, differ, live, member⟩ := covered b set
  refine ⟨j, by rw [dropInode_live differ, live], ?_⟩
  change b ∈ ((fs.setInode i _).itable j).blocks
  rwa [FsCtx.setInode_other differ]

theorem removed (covered : CoveredBut fs i) {path : CString} {now : Timespec}
    (effect : Removed fs path i now fs') : Covered fs' := by
  cases effect with
  | unmarked clear result => exact result ▸ covered.setInode
  | dropped marked result => exact result ▸ covered.dropInode
  | cleared marked walk inside search result =>
    have credited : Covered (fs.dropInode i now).creditBlock := covered.dropInode
    exact result ▸ credited.touch clearDentry_touches

end CoveredBut

namespace Covered

variable {fs fs' : FsCtx} {i : Nat}

theorem growth (covered : Covered fs) {n start : Nat} {now : Timespec} {inode : A1fsInode}
    (live : fs.live i = true) (growth : Growth fs i n now start inode) :
    Covered ((fs.setInode i inode).flipBlocks (List.range' start n) 1) := by
  apply covered.extend live
  · rw [growth.blocks]
    exact List.subset_append_left _ _
  · rw [growth.blocks]
    exact List.subset_append_right _ _

theorem resized (covered : Covered fs) {size : Int} {now : Timespec}
    (grows : 0 < growthBlocks (fs.itable i) size → fs.live i = true)
    (shrinks : Shrinks (fs.itable i) size → if size = 0
      then fs.Marked i ∧ (fs.itable i).blocks.length ≤ (releasedBlocks (fs.itable i) 0).length
      else fs.live i = true)
    (effect : Resized fs i size now fs') : Covered fs' := by
  cases effect with
  | touched touches => exact covered.touch touches
  | @grown n start inode blocks growth bits inside touches =>
    refine Covered.touch ?_ touches
    by_cases some : 0 < n
    · exact covered.growth (grows (by omega)) growth
    · obtain rfl : n = 0 := by omega
      have same := growth.blocks
      rw [List.range'_zero, List.append_nil] at same
      intro b set
      obtain ⟨j, live, member⟩ := covered b set
      refine ⟨j, live, ?_⟩
      rw [FsCtx.flipBlocks_itable]
      by_cases self : j = i
      · rw [self, FsCtx.setInode_self, same]
        exact self ▸ member
      · rwa [FsCtx.setInode_other self]
  | shrunk shrink bits touches =>
    refine Covered.touch ?_ touches
    have allowed := shrinks shrink
    have mine : releasedBlocks (fs.itable i) size ⊆ (fs.itable i).blocks := by
      intro b member
      exact List.mem_reverse.mp (takeDown_subset member)
    split at allowed
    · rename_i emptied
      subst emptied
      obtain ⟨marked, whole⟩ := allowed
      have all : releasedBlocks (fs.itable i) 0 = (fs.itable i).blocks.reverse := by
        rw [releasedBlocks, takeDown] at whole ⊢
        split
        · rfl
        · rename_i counted
          rw [if_neg counted, List.length_take, List.length_reverse] at whole
          exact List.take_of_length_le (by rw [List.length_reverse]; omega)
      have but : CoveredBut (fs.flipBlocks (releasedBlocks (fs.itable i) 0) 0) i := by
        rw [all]
        exact covered.release marked (fun b => List.mem_reverse) (List.nodup_reverse.mpr marked.1)
      exact but.setInode_flipBlocks
    · rename_i positive
      have same : (shrunkInode (fs.itable i) size).blocks = (fs.itable i).blocks :=
        (shrunk_sameExtents positive).blocks
      apply covered.extend allowed
      · rw [same]
        exact List.Subset.refl _
      · rwa [same]

theorem addsBlock (covered : Covered fs) {now : Timespec} (live : fs.live i = true)
    (added : fs.AddsBlock i now fs') : Covered fs' := by
  obtain ⟨block, inode, growth, -, rfl⟩ := added
  exact (covered.growth live growth).touch (i := i) .setData

theorem effect (covered : Covered fs) {event : Event} (leaks : LeaksNothing fs event)
    (effect : Effect fs event.env event.call fs') : Covered fs' := by
  cases effect with
  | unchanged same => exact same ▸ covered
  | @taken ino _ new free result =>
    exact result ▸ covered.takeInode (getAvailableBit_free free).2
  | @entered ino p _ _ _ new free walk inside added search write =>
    have live := leaks.entersLive.holds new free walk
    refine Covered.touch ?_ (writeDentry_touches write)
    obtain ⟨-, clear⟩ := getAvailableBit_free free
    rcases added with ⟨-, rfl⟩ | ⟨needed, added⟩
    · exact covered.takeInode clear
    · exact (covered.takeInode clear).addsBlock (live needed) added
  | resized walk inside asked effect =>
    obtain ⟨grows, shrinks⟩ := leaks.resizesLive.holds walk asked
    exact covered.resized grows shrinks effect
  | written walk inside touches => exact covered.touch touches
  | stopped unlinks walk inside stops result =>
    have unlinksMarked := leaks.unlinksMarked
    rw [UnlinksMarked, unlinks] at unlinksMarked
    obtain ⟨nodup, marked⟩ := unlinksMarked.holds walk
    have fewer := slotBlocks_sublist stops.1.1
    rw [result]
    exact covered.clearBits (nodup.sublist fewer) fun b member => marked b (fewer.subset member)
  | @removed ino removes walk inside passes bits effect =>
    have but : CoveredBut (fs.flipBlocks (event.call.freedBlocks (fs.itable ino)) 0) ino := by
      rcases removes with ⟨path, unlinks⟩ | ⟨⟨path, removes⟩, empty⟩
      · have unlinksMarked := leaks.unlinksMarked
        rw [UnlinksMarked, unlinks] at unlinksMarked
        rw [unlinks] at walk ⊢
        have marked := unlinksMarked.holds walk
        exact covered.release marked (fun b => Iff.rfl) marked.1
      · have bare := leaks.rmdirBare
        rw [RmdirBare, removes] at bare
        rw [removes] at walk ⊢
        have none := (bare.holds walk).resolve_left (not_not_intro empty)
        refine covered.release ⟨by rw [none]; exact List.nodup_nil, by simp [none]⟩ ?_ List.nodup_nil
        rw [none]
        exact fun b => Iff.rfl
    exact but.removed effect

theorem nothingLeaked (covered : Covered fs) : NothingLeaked fs := by
  constructor
  · intro b set
    obtain ⟨i, live, member⟩ := covered b set
    exact ⟨i, live, A1fsInode.mem_blocks.mp member⟩
  · intro only b set
    obtain ⟨i, live, member⟩ := covered b set
    exact only i live ▸ member

end Covered

theorem nothing_leaked {fs : FsCtx} (run : a1fs.Reaches LeaksNothing fs) : NothingLeaked fs := by
  have covered : Covered fs := by
    apply invariant_of_steady run
    · intro blocks nInodes d now g b set
      simp [formatted, Bitmap.test] at set
    · intro s event t steady covered leaks step
      exact covered.effect leaks (steady.step_effect step)
  exact covered.nothingLeaked

def tidyRun : Option FsCtx :=
  runCalls LeaksNothing quiet 10 device
    [.create pathA regularMode, .truncate pathA 9000, .mkdir pathB 0, .rmdir pathB, .unlink pathA]

theorem nothing_leaked_run : ∃ fs, tidyRun = some fs ∧ NothingLeaked fs := by
  have returns : tidyRun.isSome = true := by decide +kernel
  obtain ⟨fs, run⟩ := Option.isSome_iff_exists.mp returns
  exact ⟨fs, run, nothing_leaked (runCalls_reaches (.initial device_initial) run)⟩

/-- A file that shrinks in two steps keeps bits set that nothing covers any more. -/
def leakingRun : Option FsCtx :=
  runCalls (fun fs event => Documented fs event.call) quiet 10 device
    [.create pathA regularMode, .truncate pathA 5000, .truncate pathA 100, .truncate pathA 0,
      .unlink pathA]

theorem nothing_leaked_fails :
    ∃ fs, a1fs.Reaches (fun fs event => Documented fs event.call) fs ∧ ¬ NothingLeaked fs := by
  have leaked : ∃ fs ∈ leakingRun, fs.sb.sbInodesCount = 16 ∧ (∀ i ∈ List.range 16, fs.live i = true → i = 0) ∧
      fs.blockBits.test 1 = true ∧ 1 ∉ (fs.itable 0).blocks := by decide +kernel
  obtain ⟨fs, run, count, only, set, absent⟩ := leaked
  refine ⟨fs, runCalls_reaches (.initial device_initial) run, fun covered => ?_⟩
  refine absent (covered.2 (fun i live => ?_) 1 set)
  have inside := (live_iff.mp live).1
  exact only i (List.mem_range.mpr (by omega)) live

end ExtentFs
