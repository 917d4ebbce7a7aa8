import Mathlib.Data.List.Pairwise
import ExtentFs.Invariants.Conditions
import ExtentFs.Invariants.Ownership

namespace ExtentFs

open Base

/-- Every block covered by an extent of a live inode is covered by no other such extent, lies
    in the data region and is marked as used. -/
def BlocksOwned (fs : FsCtx) : Prop :=
  ∀ i k b, fs.live i = true → k ∈ (fs.itable i).usedSlots → b ∈ ((fs.itable i).iExtent k).blocks →
    (∀ j l, fs.live j = true → l ∈ (fs.itable j).usedSlots →
      b ∈ ((fs.itable j).iExtent l).blocks → j = i ∧ l = k) ∧
    b < fs.dataBlocks ∧ fs.blockBits.test b = true

/-- A shrinking goes to size 0, where the inode gives up all its blocks, or clears no bit. -/
def ShrinksWhole (fs : FsCtx) (event : Event) : Prop :=
  OnResize fs event.call fun i size =>
    Shrinks (fs.itable i) size → size = 0 ∨ releasedBlocks (fs.itable i) size = []

/-- `a1fs_unlink` does not give up after it has cleared a bit. -/
def UnlinksWhole (fs : FsCtx) (event : Event) : Prop :=
  OnUnlink fs event.call fun i =>
    ∀ k ∈ (fs.itable i).usedSlots, StopsFirst fs i k → (fs.itable i).slotBlocks (List.range k) = []

instance (fs : FsCtx) (event : Event) : Decidable (ShrinksWhole fs event) :=
  inferInstanceAs (Decidable (OnResize _ _ _))

instance (fs : FsCtx) (event : Event) : Decidable (UnlinksWhole fs event) :=
  inferInstanceAs (Decidable (OnUnlink _ _ _))

structure KeepsOwnership (fs : FsCtx) (event : Event) : Prop where
  documented : Documented fs event.call
  findsSlot : FindsSlot fs event
  growsApart : GrowsApart fs event
  shrinksWhole : ShrinksWhole fs event
  unlinksWhole : UnlinksWhole fs event

instance (fs : FsCtx) (event : Event) : Decidable (KeepsOwnership fs event) :=
  decidable_of_iff (Documented fs event.call ∧ FindsSlot fs event ∧ GrowsApart fs event ∧
      ShrinksWhole fs event ∧ UnlinksWhole fs event)
    ⟨fun ⟨a, b, c, d, e⟩ => ⟨a, b, c, d, e⟩, fun ⟨a, b, c, d, e⟩ => ⟨a, b, c, d, e⟩⟩

namespace Owned

variable {fs fs' : FsCtx} {i : Nat}

theorem slot_unique (own : Owned fs) {k l b : Nat} (first : k ∈ (fs.itable i).usedSlots)
    (second : l ∈ (fs.itable i).usedSlots) (inFirst : b ∈ ((fs.itable i).iExtent k).blocks)
    (inSecond : b ∈ ((fs.itable i).iExtent l).blocks) : l = k := by
  by_contra differ
  obtain ⟨-, apart⟩ := List.nodup_flatMap.mp (own.exclusive.nodup i)
  have symmetric : Std.Symm (Function.onFun List.Disjoint fun k => ((fs.itable i).iExtent k).blocks) :=
    ⟨fun _ _ => List.disjoint_symm⟩
  exact apart.forall second first differ inSecond inFirst

theorem blocksOwned (own : Owned fs) : BlocksOwned fs := by
  intro i k b _ slot covered
  have mine : b ∈ (fs.itable i).blocks := A1fsInode.mem_blocks.mpr ⟨k, slot, covered⟩
  refine ⟨fun j l _ slot' covered' => ?_, own.inside i b mine, own.used i b mine⟩
  have yours : b ∈ (fs.itable j).blocks := A1fsInode.mem_blocks.mpr ⟨l, slot', covered'⟩
  obtain rfl := own.exclusive.owner_unique yours mine
  exact ⟨rfl, own.slot_unique slot slot' covered covered'⟩

theorem shrunk (own : Owned fs) {size : Int}
    (whole : size = 0 ∨ releasedBlocks (fs.itable i) size = []) :
    Owned ((fs.setInode i (shrunkInode (fs.itable i) size)).flipBlocks
      (releasedBlocks (fs.itable i) size) 0) := by
  have mine : releasedBlocks (fs.itable i) size ⊆ (fs.itable i).blocks := by
    intro b member
    exact List.mem_reverse.mp (takeDown_subset member)
  by_cases emptied : size = 0
  · refine own.emptied ?_ mine
    rw [emptied, shrunk_unused]
  · have nothing := whole.resolve_left emptied
    rw [nothing, FsCtx.flipBlocks_nil]
    exact own.touch (.setInode (shrunk_sameExtents emptied))

theorem resized (own : Owned fs) (steady : Steady fs) {size : Int} {now : Timespec}
    (apart : fs.attaches i (growthBlocks (fs.itable i) size) = false)
    (whole : Shrinks (fs.itable i) size → size = 0 ∨ releasedBlocks (fs.itable i) size = [])
    (effect : Resized fs i size now fs') : Owned fs' := by
  cases effect with
  | touched touches => exact own.touch touches
  | grown blocks growth bits inside touches =>
    rw [blocks] at apart
    refine (own.grown steady growth apart fun b member => ?_).touch touches
    have room := inside apart b member
    rw [steady.shaped.whole] at room
    omega
  | shrunk shrinks bits touches => exact (own.shrunk (whole shrinks)).touch touches

theorem removed (own : Owned fs) {l : List Nat} (mine : l ⊆ (fs.itable i).blocks) {path : CString}
    {now : Timespec} (effect : Removed (fs.flipBlocks l 0) path i now fs') : Owned fs' := by
  have reset : Owned ((fs.setInode i (resetInode (fs.itable i) now)).flipBlocks l 0) :=
    own.emptied rfl mine
  have dropped : Owned ((fs.flipBlocks l 0).dropInode i now) := reset.same (fun _ => rfl) rfl rfl
  cases effect with
  | unmarked clear result => exact result ▸ reset
  | dropped marked result => exact result ▸ dropped
  | cleared marked walk inside search result =>
    have credited : Owned ((fs.flipBlocks l 0).dropInode i now).creditBlock :=
      dropped.same (fun _ => rfl) rfl rfl
    exact result ▸ credited.touch clearDentry_touches

theorem effect (own : Owned fs) (steady : Steady fs) {event : Event}
    (keeps : KeepsOwnership fs event) (effect : Effect fs event.env event.call fs') : Owned fs' := by
  cases effect with
  | unchanged same => exact same ▸ own
  | taken new free result => exact result ▸ own.takeInode
  | entered new free walk inside added search write =>
    have apart := keeps.growsApart.2.holds new free walk
    refine Owned.touch ?_ (writeDentry_touches write)
    rcases added with ⟨-, rfl⟩ | ⟨needed, added⟩
    · exact own.takeInode
    · exact own.takeInode.addsBlock steady.takeInode (apart needed) added
  | resized walk inside asked effect =>
    exact own.resized steady (keeps.growsApart.1.holds walk asked)
      (keeps.shrinksWhole.holds walk asked) effect
  | written walk inside touches => exact own.touch touches
  | stopped unlinks walk inside stops result =>
    have whole := keeps.unlinksWhole
    rw [UnlinksWhole, unlinks] at whole
    rw [result, whole.holds walk _ stops.1.1 stops, FsCtx.flipBlocks_nil]
    exact own
  | removed removes walk inside passes bits effect =>
    refine own.removed ?_ effect
    rcases removes with ⟨path, unlinks⟩ | ⟨⟨path, removes⟩, -⟩
    · rw [unlinks]
      exact List.Subset.refl _
    · rw [removes]
      exact List.nil_subset _

end Owned

theorem Geometry.owned {blocks nInodes d : Nat} {now : Timespec} :
    Owned (formatted blocks nInodes d now) := by
  have none := formatted_blocks blocks nInodes d now
  exact ⟨.empty none, fun i b member => by simp [none i] at member,
    fun i b member => by simp [none i] at member⟩

theorem blocks_owned {fs : FsCtx} (run : a1fs.Reaches KeepsOwnership fs) : BlocksOwned fs := by
  have own : Owned fs := by
    refine invariant_of_steady run (fun _ => Geometry.owned) ?_
    intro s event t steady own keeps step
    exact own.effect steady keeps (steady.step_effect step)
  exact own.blocksOwned

def ownedRun : Option FsCtx :=
  runCalls KeepsOwnership quiet 10 device
    [.create pathA regularMode, .create pathB regularMode, .truncate pathA 100,
      .truncate pathB 5000, .truncate pathB 0, .unlink pathA]

theorem blocks_owned_run : ∃ fs, ownedRun = some fs ∧ BlocksOwned fs := by
  have returns : ownedRun.isSome := by decide +kernel
  obtain ⟨fs, run⟩ := Option.isSome_iff_exists.mp returns
  exact ⟨fs, run, blocks_owned (runCalls_reaches (.initial device_initial) run)⟩

/-- A file that grows next to another file's block takes that block and clears its bit. -/
def takingRun : Option FsCtx :=
  runCalls (fun fs event => Documented fs event.call) quiet 10 device
    [.create pathA regularMode, .create pathB regularMode, .truncate pathA 100,
      .truncate pathB 100, .truncate pathA 8192]

theorem blocks_owned_fails :
    ∃ fs, a1fs.Reaches (fun fs event => Documented fs event.call) fs ∧ ¬ BlocksOwned fs := by
  have shared : ∃ fs ∈ takingRun, fs.live 1 = true ∧ fs.live 2 = true ∧ 0 ∈ (fs.itable 1).usedSlots ∧
      0 ∈ (fs.itable 2).usedSlots ∧ 2 ∈ ((fs.itable 1).iExtent 0).blocks ∧
      2 ∈ ((fs.itable 2).iExtent 0).blocks := by decide +kernel
  obtain ⟨fs, run, liveA, liveB, slotA, slotB, inA, inB⟩ := shared
  refine ⟨fs, runCalls_reaches (.initial device_initial) run, fun owned => ?_⟩
  have same := ((owned 1 0 2 liveA slotA inA).1 2 0 liveB slotB inB).1
  cases same

end ExtentFs
