import ExtentFs.Invariants.Files

namespace ExtentFs

open Base

/-- The counts of a live regular file's extents are positive and sum to the number of blocks that
    its size needs. -/
def SizesAgree (fs : FsCtx) : Prop :=
  ∀ i, fs.live i = true → sIsreg (fs.itable i).mode = true →
    (∀ k ∈ (fs.itable i).usedSlots, 0 < ((fs.itable i).iExtent k).count) ∧
      ((fs.itable i).usedSlots.map fun k => ((fs.itable i).iExtent k).count).sum =
        ((fs.itable i).size + 4095) / 4096

/-- The calls that keep sizes and block counts together. -/
structure KeepsSizes (fs : FsCtx) (event : Event) : Prop where
  findsSlot : FindsSlot fs event
  enters : EntersDirectory fs event
  fills : OnResize fs event.call fun i size => (fs.itable i).Fills size

instance (fs : FsCtx) (event : Event) : Decidable (KeepsSizes fs event) :=
  decidable_of_iff (FindsSlot fs event ∧ EntersDirectory fs event ∧
    OnResize fs event.call fun i size => (fs.itable i).Fills size)
    ⟨fun ⟨a, b, c⟩ => ⟨a, b, c⟩, fun ⟨a, b, c⟩ => ⟨a, b, c⟩⟩

theorem filled_property : FileProperty A1fsInode.Filled := by
  constructor
  · intro inode mode now
    exact .of_empty rfl rfl
  · intro inode inode' size extents last filled
    have slots : inode'.usedSlots = inode.usedSlots := by
      rw [A1fsInode.usedSlots, A1fsInode.usedSlots, last]
    refine ⟨size ▸ filled.fits, ?_, ?_⟩
    · intro k slot
      rw [slots] at slot
      rw [extents]
      exact filled.counted k slot
    · rw [A1fsInode.blockCount, slots, extents, size]
      exact filled.total

theorem sizes_agree {fs : FsCtx} (run : a1fs.Reaches KeepsSizes fs) : SizesAgree fs := by
  have files : fs.Files A1fsInode.Filled := by
    refine invariant_of_steady (P := fun fs => fs.Files A1fsInode.Filled) run (fun _ => .formatted) ?_
    intro s event t steady files keeps step
    obtain ⟨fuel, returned⟩ := step
    refine files.step filled_property steady keeps.enters ?_ returned
    intro i size walk asked alive regular fs1 t truncate
    exact a1fsTruncate_filled steady.shaped.range walk (files i alive regular)
      (keeps.fills.holds walk asked) truncate
  intro i alive regular
  have filled := files i alive regular
  exact ⟨filled.counted, filled.total⟩

def agreeingRun : Option FsCtx :=
  runCalls KeepsSizes quiet 10 device
    [.create pathA regularMode, .truncate pathA 100, .truncate pathA 9000, .truncate pathA 8200,
      .create pathB regularMode, .write pathB [1#8, 2#8] 5, .truncate pathA 0, .unlink pathA]

theorem sizes_agree_run : ∃ fs, agreeingRun = some fs ∧ SizesAgree fs := by
  have returns : agreeingRun.isSome = true := by decide +kernel
  obtain ⟨fs, run⟩ := Option.isSome_iff_exists.mp returns
  exact ⟨fs, run, sizes_agree (runCalls_reaches (.initial device_initial) run)⟩

/-- A file that grows inside its first block gets a second one. -/
def regrownRun : Option FsCtx :=
  runCalls (fun fs event => Documented fs event.call) quiet 10 device
    [.create pathA regularMode, .truncate pathA 100, .truncate pathA 200]

theorem sizes_agree_fails :
    ∃ fs, a1fs.Reaches (fun fs event => Documented fs event.call) fs ∧ ¬ SizesAgree fs := by
  have two : ∃ fs ∈ regrownRun, fs.live 1 = true ∧ sIsreg (fs.itable 1).mode = true ∧
      (fs.itable 1).size = 200 ∧
      ((fs.itable 1).usedSlots.map fun k => ((fs.itable 1).iExtent k).count).sum = 2 := by decide +kernel
  obtain ⟨fs, run, alive, regular, size, count⟩ := two
  refine ⟨fs, runCalls_reaches (.initial device_initial) run, fun agree => ?_⟩
  obtain ⟨-, total⟩ := agree 1 alive regular
  rw [size, count] at total
  cases total

/-- The size fields of a live regular file's extents are in range and sum to its size. -/
def ExtentBytesAgree (fs : FsCtx) : Prop :=
  ∀ i, fs.live i = true → sIsreg (fs.itable i).mode = true →
    (∀ k ∈ (fs.itable i).usedSlots, 0 ≤ ((fs.itable i).iExtent k).size ∧
      ((fs.itable i).iExtent k).size ≤ 4096 * ((fs.itable i).iExtent k).count) ∧
      ((fs.itable i).usedSlots.map fun k => ((fs.itable i).iExtent k).size).sum =
        ((fs.itable i).size : Int)

/-- The calls that keep the size fields right: no file gets bytes. -/
structure KeepsEmpty (fs : FsCtx) (event : Event) : Prop where
  enters : EntersDirectory fs event
  empty : OnResize fs event.call fun _ size => size = 0

instance (fs : FsCtx) (event : Event) : Decidable (KeepsEmpty fs event) :=
  decidable_of_iff (EntersDirectory fs event ∧ OnResize fs event.call fun _ size => size = 0)
    ⟨fun ⟨a, b⟩ => ⟨a, b⟩, fun ⟨a, b⟩ => ⟨a, b⟩⟩

structure A1fsInode.Empty (inode : A1fsInode) : Prop where
  unused : inode.lastUsedExtent = -1
  size : inode.size = 0

theorem empty_property : FileProperty A1fsInode.Empty := by
  constructor
  · intro inode mode now
    exact ⟨rfl, rfl⟩
  · intro inode inode' size extents last empty
    exact ⟨last.trans empty.unused, size.trans empty.size⟩

section Grow

variable {fs fs' : FsCtx} {i size fuel : Nat} {env : Env} {path : CString} {r : Int}

theorem a1fsTruncate_empty (walk : getInodeNum fs path 0 = .ok (i : Int)) (empty : (fs.itable i).Empty)
    (h : a1fsTruncate env fuel fs path 0 = .ok (fs', r)) : fs' = fs := by
  have zero : toInt ((fs.itable i).size : Int) = 0 := by
    rw [empty.size]
    exact toInt_of_fits (by omega) (by omega)
  rw [a1fsTruncate, walk, ok_bind, bind_eq_ok] at h
  obtain ⟨inode, read, h⟩ := h
  obtain ⟨-, rfl⟩ := inodeAt_ok.mp read
  rw [Int.toNat_natCast, zero] at h
  cases h
  rfl

theorem first_extent_size {inode : A1fsInode} {extent : A1fsExtent} (now : Timespec)
    (unused : inode.lastUsedExtent = -1) :
    ((inode.appendExtent extent now).usedSlots.map fun k =>
      ((inode.appendExtent extent now).iExtent k).size).sum = extent.size := by
  have slots : (inode.appendExtent extent now).usedSlots = [0] := by
    rw [A1fsInode.usedSlots, A1fsInode.appendExtent]
    dsimp only
    rw [unused]
    rfl
  have slot : (inode.appendExtent extent now).iExtent 0 = extent := by
    apply if_pos
    rw [unused]
    rfl
  rw [slots, List.map_singleton, slot, List.sum_singleton]

/-- The first extent of a file that gets bytes: its size field is not the size of the file. -/
theorem a1fsTruncate_first (range : (fs.sb.sbFirstEmptyDb : Int) ≤ fs.sb.maxIndex)
    (walk : getInodeNum fs path 0 = .ok (i : Int)) (empty : (fs.itable i).Empty) (some : 0 < size)
    (small : size < 2 ^ 31) (h : a1fsTruncate env fuel fs path size = .ok (fs', r)) :
    (fs'.itable i).mode = (fs.itable i).mode ∧ (fs'.itable i).size = size ∧
      ((fs'.itable i).usedSlots.map fun k => ((fs'.itable i).iExtent k).size).sum ≠ size := by
  have fresh : fs.attaches i (growthBlocks (fs.itable i) size) = false :=
    FsCtx.StartsExtent.attaches (.inl empty.unused)
  have truncated := a1fsTruncate_exact range (.of_empty empty.unused empty.size) small fresh walk h
  cases truncated with
  | same code equal => rw [empty.size] at equal; omega
  | stuck code used => exact absurd empty.unused used
  | filled code used => exact absurd empty.unused used
  | shrunk code used => exact absurd empty.unused used
  | @grown start bytes tail code asks some' found low room reach inside result =>
    have bytes' : bytes = size := by
      cases asks with
      | first => rfl
      | short used => rfl
      | long used => exact absurd empty.unused used
    subst bytes'
    have first (extent : A1fsExtent) : (List.map (fun k =>
        (({ (fs.itable i).appendExtent extent env.now with size := bytes } : A1fsInode).iExtent k).size)
        ({ (fs.itable i).appendExtent extent env.now with size := bytes } : A1fsInode).usedSlots).sum =
        extent.size := first_extent_size env.now empty.unused
    rw [result, extended_itable]
    refine ⟨rfl, rfl, ?_⟩
    rw [first]
    dsimp only
    rw [zeroedSize]
    split <;> omega

end Grow

/-- The size fields are right as long as no file gets bytes, and wrong as soon as one does. -/
theorem extent_bytes_agree {fs : FsCtx} (run : a1fs.Reaches KeepsEmpty fs) :
    ExtentBytesAgree fs ∧ ∀ (event : Event) (fs' : FsCtx) (i size : Nat), a1fs.Step fs event fs' →
      getInodeNum fs event.call.path 0 = .ok (i : Int) → fs.live i = true →
      sIsreg (fs.itable i).mode = true → event.call.resizeTo (fs.itable i) = some (size : Int) →
      0 < size → size < 2 ^ 31 → ¬ ExtentBytesAgree fs' := by
  have steady := steady_of_reaches run
  have files : fs.Files A1fsInode.Empty := by
    refine invariant_of_steady (P := fun fs => fs.Files A1fsInode.Empty) run (fun _ => .formatted) ?_
    intro s event t steady files keeps step
    obtain ⟨fuel, returned⟩ := step
    refine files.step empty_property steady keeps.enters ?_ returned
    intro i size walk asked alive regular fs1 t truncate
    have zero := keeps.empty.holds walk asked
    rw [zero] at truncate
    rw [a1fsTruncate_empty walk (files i alive regular) truncate]
    exact files i alive regular
  constructor
  · intro i alive regular
    obtain ⟨unused, size⟩ := files i alive regular
    have slots : (fs.itable i).usedSlots = [] := by
      rw [A1fsInode.usedSlots, unused]
      rfl
    rw [slots, size]
    exact ⟨by simp, rfl⟩
  · intro event fs' i size step walk alive regular asked some small agree
    obtain ⟨fuel, returned⟩ := step
    obtain ⟨fs1, t, data, truncate, rfl⟩ := Call.exec_resize walk asked returned
    obtain ⟨j, walk', -, resized⟩ := a1fsTruncate_resized steady.shaped.range truncate
    obtain ⟨-, live, -⟩ := resized.frame
    obtain ⟨mode, newSize, wrong⟩ := a1fsTruncate_first steady.shaped.range walk
      (files i alive regular) some small truncate
    have alive' : fs1.live i = true := by rw [live, alive]
    obtain ⟨-, total⟩ := agree i alive' (by rw [mode]; exact regular)
    rw [newSize] at total
    exact wrong total

def emptyRun : Option FsCtx :=
  runCalls KeepsEmpty quiet 10 device
    [.create pathA regularMode, .truncate pathA 0, .create pathB regularMode, .write pathB [] 0,
      .unlink pathA]

theorem extent_bytes_agree_run : ∃ fs, emptyRun = some fs ∧ ExtentBytesAgree fs := by
  have returns : emptyRun.isSome = true := by decide +kernel
  obtain ⟨fs, run⟩ := Option.isSome_iff_exists.mp returns
  exact ⟨fs, run, (extent_bytes_agree (runCalls_reaches (.initial device_initial) run)).1⟩

/-- The size field of a file's only extent is twice its size. -/
def doubledRun : Option FsCtx :=
  runCalls (fun fs event => Documented fs event.call) quiet 10 device
    [.create pathA regularMode, .truncate pathA 100]

theorem extent_bytes_agree_fails :
    ∃ fs, a1fs.Reaches (fun fs event => Documented fs event.call) fs ∧ ¬ ExtentBytesAgree fs := by
  have doubled : ∃ fs ∈ doubledRun, fs.live 1 = true ∧ sIsreg (fs.itable 1).mode = true ∧
      (fs.itable 1).size = 100 ∧
      ((fs.itable 1).usedSlots.map fun k => ((fs.itable 1).iExtent k).size).sum = 200 := by decide +kernel
  obtain ⟨fs, run, alive, regular, size, bytes⟩ := doubled
  refine ⟨fs, runCalls_reaches (.initial device_initial) run, fun agree => ?_⟩
  obtain ⟨-, total⟩ := agree 1 alive regular
  rw [size, bytes] at total
  cases total

end ExtentFs
