import ExtentFs.Invariants.Steady

namespace ExtentFs

open Base

def FsCtx.freeInodes (fs : FsCtx) : Finset Nat := fs.inodeBits.clear fs.sb.sbInodesCount.toNat

/-- The superblock counts the clear inode bits and no bit beyond the inodes is set. -/
structure InodesCounted (fs : FsCtx) : Prop where
  counter : fs.sb.sbFreeInodesCount = fs.freeInodes.card
  beyond : ∀ i : Nat, fs.sb.sbInodesCount ≤ i → fs.inodeBits.test i = false

def FsCtx.NoInodeLeft (fs : FsCtx) : Prop :=
  ∀ i : Nat, (i : Int) < fs.sb.sbInodesCount → fs.inodeBits.test i = true

/-- A call that makes an inode picks one whose bit is clear, and answers that none is left
    exactly when all bits are set. -/
def PicksFree (fs : FsCtx) (call : Call) : Prop :=
  ∀ env fuel, (call.exec env fuel fs = .ok (fs, -eNoSpc) ↔ fs.NoInodeLeft) ∧
    ∀ fs' r, ¬ fs.NoInodeLeft → call.exec env fuel fs = .ok (fs', r) →
      ∃ ino : Nat, (ino : Int) < fs.sb.sbInodesCount ∧ fs.inodeBits.test ino = false ∧
        fs'.inodeBits = fs.inodeBits.flip ino

namespace InodesCounted

variable {fs fs' : FsCtx} {i : Nat}

theorem same (counted : InodesCounted fs) (bits : fs'.inodeBits = fs.inodeBits)
    (free : fs'.sb.sbFreeInodesCount = fs.sb.sbFreeInodesCount)
    (count : fs'.sb.sbInodesCount = fs.sb.sbInodesCount) : InodesCounted fs' := by
  refine ⟨?_, fun i above => ?_⟩
  · rw [free, counted.counter, FsCtx.freeInodes, FsCtx.freeInodes, bits, count]
  · rw [bits]
    exact counted.beyond i (count ▸ above)

theorem touch (counted : InodesCounted fs) (touches : fs.Touches fs' i) : InodesCounted fs' := by
  have sb := touches.sb
  apply counted.same touches.inodeBits
  · rw [← sb]
  · rw [← sb]

theorem beyond_flip (counted : InodesCounted fs) (inside : (i : Int) < fs.sb.sbInodesCount) {j : Nat}
    (above : fs.sb.sbInodesCount ≤ j) : (fs.inodeBits.flip i).test j = false := by
  rw [Bitmap.test_flip, counted.beyond j above, decide_eq_false (by omega)]
  rfl

theorem takeInode (counted : InodesCounted fs) (inside : (i : Int) < fs.sb.sbInodesCount)
    (clear : fs.inodeBits.test i = false) {mode : BitVec 32} {now : Timespec} :
    InodesCounted (fs.takeInode i mode now) := by
  have fewer : ((fs.inodeBits.flip i).clear fs.sb.sbInodesCount.toNat).card + 1 =
      (fs.inodeBits.clear fs.sb.sbInodesCount.toNat).card := Bitmap.clear_flip_of_clear (by omega) clear
  refine ⟨?_, fun j above => ?_⟩
  · change fs.sb.sbFreeInodesCount - 1 = ((fs.inodeBits.flip i).clear fs.sb.sbInodesCount.toNat).card
    rw [counted.counter, FsCtx.freeInodes]
    omega
  · exact counted.beyond_flip inside above

theorem dropInode (counted : InodesCounted fs) (inside : (i : Int) < fs.sb.sbInodesCount)
    (set : fs.inodeBits.test i = true) {now : Timespec} : InodesCounted (fs.dropInode i now) := by
  have more : ((fs.inodeBits.flip i).clear fs.sb.sbInodesCount.toNat).card =
      (fs.inodeBits.clear fs.sb.sbInodesCount.toNat).card + 1 := Bitmap.clear_flip_of_set (by omega) set
  refine ⟨?_, fun j above => ?_⟩
  · change fs.sb.sbFreeInodesCount + 1 = ((fs.inodeBits.flip i).clear fs.sb.sbInodesCount.toNat).card
    rw [counted.counter, FsCtx.freeInodes]
    omega
  · exact counted.beyond_flip inside above

theorem addsBlock (counted : InodesCounted fs) {now : Timespec} (added : fs.AddsBlock i now fs') :
    InodesCounted fs' := by
  obtain ⟨block, inode, -, -, rfl⟩ := added
  exact counted.same rfl rfl rfl

theorem mayAdd (counted : InodesCounted fs) {now : Timespec} {needed : Prop}
    (added : fs.MayAdd i now needed fs') : InodesCounted fs' := by
  rcases added with ⟨-, rfl⟩ | ⟨-, added⟩
  · exact counted
  · exact counted.addsBlock added

theorem resized (counted : InodesCounted fs) {size : Int} {now : Timespec}
    (effect : Resized fs i size now fs') : InodesCounted fs' := by
  have kept (inode : A1fsInode) (l : List Nat) (flipType : Nat) :
      InodesCounted ((fs.setInode i inode).flipBlocks l flipType) := counted.same rfl rfl rfl
  cases effect with
  | touched touches => exact counted.touch touches
  | grown blocks growth bits inside touches => exact (kept _ _ _).touch touches
  | shrunk shrinks bits touches => exact (kept _ _ _).touch touches

theorem removed (counted : InodesCounted fs) {path : CString} {now : Timespec}
    (inside : (i : Int) < fs.sb.sbInodesCount) (effect : Removed fs path i now fs') :
    InodesCounted fs' := by
  cases effect with
  | unmarked clear result => exact result ▸ counted.same rfl rfl rfl
  | dropped marked result => exact result ▸ counted.dropInode inside marked
  | cleared marked walk inside' search result =>
    have dropped : InodesCounted (fs.dropInode i now) := counted.dropInode inside marked
    have credited : InodesCounted (fs.dropInode i now).creditBlock := dropped.same rfl rfl rfl
    exact result ▸ credited.touch clearDentry_touches

theorem effect (counted : InodesCounted fs) {env : Env} {call : Call}
    (effect : Effect fs env call fs') : InodesCounted fs' := by
  cases effect with
  | unchanged same => exact same ▸ counted
  | @taken ino _ new free result =>
    obtain ⟨inside, clear⟩ := getAvailableBit_free free
    exact result ▸ counted.takeInode inside clear
  | @entered ino _ _ _ _ new free walk inside added search write =>
    obtain ⟨inside', clear⟩ := getAvailableBit_free free
    exact ((counted.takeInode inside' clear).mayAdd added).touch (writeDentry_touches write)
  | resized walk inside asked effect => exact counted.resized effect
  | written walk inside touches => exact counted.touch touches
  | stopped unlinks walk inside stops result => exact result ▸ counted.same rfl rfl rfl
  | @removed ino removes walk inside passes bits effect =>
    have freed : InodesCounted (fs.flipBlocks (call.freedBlocks (fs.itable ino)) 0) :=
      counted.same rfl rfl rfl
    exact freed.removed inside effect

theorem search_full (counted : InodesCounted fs) (steady : Steady fs) (full : fs.NoInodeLeft) :
    getAvailableBit fs.sb fs.inodeBits .inode (-1) = .ok (-1) := by
  have none : fs.freeInodes = ∅ := by
    rw [Finset.eq_empty_iff_forall_notMem]
    intro i free
    obtain ⟨below, clear⟩ := Bitmap.mem_clear.mp free
    rw [full i (by omega)] at clear
    cases clear
  have zero := counted.counter
  rw [none, Finset.card_empty] at zero
  have enough := steady.counter
  rw [getAvailableBit, if_neg (by omega), if_pos (by omega)]

theorem full_of_search (counted : InodesCounted fs) (steady : Steady fs)
    (search : getAvailableBit fs.sb fs.inodeBits .inode (-1) = .ok (-1)) : fs.NoInodeLeft := by
  have enough := steady.counter
  intro i below
  rw [getAvailableBit, if_neg (by omega)] at search
  split at search
  · rename_i zero
    have counter := counted.counter
    have none : fs.freeInodes = ∅ := Finset.card_eq_zero.mp (by omega)
    by_contra clear
    have free : i ∈ fs.freeInodes := Bitmap.mem_clear.mpr ⟨by omega, by simpa using clear⟩
    rw [none] at free
    cases free
  · rcases availableInode_spec search with ⟨-, full⟩ | ⟨j, found, -⟩
    · exact full i (by omega) (by omega)
    · omega

end InodesCounted

section Picks

variable {fs fs' : FsCtx} {env : Env} {path : CString} {mode : BitVec 32} {r noParent : Int}

theorem addDentry_inodeBits {p ino : Nat} {name : List Byte} {now : Timespec}
    (h : addDentry fs p ino name now = .ok (fs', r)) : fs'.inodeBits = fs.inodeBits := by
  rcases addDentry_ok h with ⟨-, rfl, -⟩ | ⟨-, fs1, addr, added, -, write⟩
  · rfl
  · rw [(writeDentry_touches write).inodeBits]
    rcases added with ⟨-, rfl⟩ | ⟨-, block, inode, -, -, rfl⟩
    · rfl
    · rfl

theorem newEntry_full (search : getAvailableBit fs.sb fs.inodeBits .inode (-1) = .ok (-1)) :
    newEntry env fs path mode noParent = .ok (fs, -eNoSpc) := by
  rw [newEntry, search, ok_bind, if_pos rfl]
  rfl

theorem newEntry_taken (some : getAvailableBit fs.sb fs.inodeBits .inode (-1) ≠ .ok (-1))
    (h : newEntry env fs path mode noParent = .ok (fs', r)) :
    ∃ ino : Nat, (ino : Int) < fs.sb.sbInodesCount ∧ fs.inodeBits.test ino = false ∧
      fs'.inodeBits = fs.inodeBits.flip ino := by
  rcases newEntry_ok h with ⟨-, -, none⟩ | ⟨ino, free, fs1, rfl, rest⟩
  · exact absurd none some
  · obtain ⟨inside, clear⟩ := getAvailableBit_free free
    refine ⟨ino, inside, clear, ?_⟩
    rcases rest with ⟨-, rfl, -⟩ | ⟨p, -, -, added, add, -⟩
    · rfl
    · exact addDentry_inodeBits add

theorem newEntry_full_iff (counted : InodesCounted fs) (steady : Steady fs) :
    (newEntry env fs path mode noParent = .ok (fs, -eNoSpc) ↔ fs.NoInodeLeft) ∧
      ∀ fs' r, ¬ fs.NoInodeLeft → newEntry env fs path mode noParent = .ok (fs', r) →
        ∃ ino : Nat, (ino : Int) < fs.sb.sbInodesCount ∧ fs.inodeBits.test ino = false ∧
          fs'.inodeBits = fs.inodeBits.flip ino := by
  refine ⟨⟨fun returned => ?_, fun full => newEntry_full (counted.search_full steady full)⟩,
    fun fs' r some returned => ?_⟩
  · by_cases search : getAvailableBit fs.sb fs.inodeBits .inode (-1) = .ok (-1)
    · exact counted.full_of_search steady search
    · obtain ⟨ino, -, clear, flipped⟩ := newEntry_taken search returned
      have set := congrArg (fun bits => bits.test ino) flipped
      simp [Bitmap.test_flip, clear] at set
  · exact newEntry_taken (fun search => some (counted.full_of_search steady search)) returned

end Picks

theorem Geometry.inodesCounted {blocks nInodes d : Nat} {now : Timespec} (g : Geometry blocks nInodes d) :
    InodesCounted (formatted blocks nInodes d now) := by
  have some := g.someInode
  refine ⟨?_, fun i above => ?_⟩
  · have free : (formatted blocks nInodes d now).freeInodes = (Finset.range nInodes).erase 0 := by
      ext i
      have count : (formatted blocks nInodes d now).sb.sbInodesCount.toNat = nInodes := rfl
      rw [FsCtx.freeInodes, Bitmap.mem_clear, formatted_marks, count, Finset.mem_erase,
        Finset.mem_range, decide_eq_false_iff_not, and_comm]
    rw [free, Finset.card_erase_of_mem (Finset.mem_range.mpr some), Finset.card_range]
    rfl
  · have above' : (nInodes : Int) ≤ i := above
    rw [formatted_marks, decide_eq_false (by omega)]

/-- Inodes are accounted for in every state that any run reaches. -/
theorem inodes_counted {fs : FsCtx} {guard : FsCtx → Event → Prop} (run : a1fs.Reaches guard fs) :
    InodesCounted fs ∧ ∀ path mode, (sIsreg mode = true → PicksFree fs (.create path mode)) ∧
      PicksFree fs (.mkdir path mode) := by
  have steady := steady_of_reaches run
  have counted : InodesCounted fs := by
    refine invariant_of_steady run (fun g => g.inodesCounted) ?_
    intro s event t steady counted _ step
    exact counted.effect (steady.step_effect step)
  refine ⟨counted, fun path mode => ⟨fun regular env fuel => ?_, fun env fuel => ?_⟩⟩
  · simp only [Call.exec, a1fsCreate, regular, if_true]
    exact newEntry_full_iff counted steady
  · exact newEntry_full_iff counted steady

def countingRun : Option FsCtx :=
  runCalls (fun _ _ => True) quiet 10 device
    [.create pathA regularMode, .mkdir pathB 0, .unlink pathA, .create pathA regularMode,
      .rmdir pathB]

theorem inodes_counted_run : ∃ fs, countingRun = some fs ∧ InodesCounted fs ∧
    ∀ path mode, (sIsreg mode = true → PicksFree fs (.create path mode)) ∧
      PicksFree fs (.mkdir path mode) := by
  have returns : countingRun.isSome = true := by decide +kernel
  obtain ⟨fs, run⟩ := Option.isSome_iff_exists.mp returns
  exact ⟨fs, run, inodes_counted (runCalls_reaches (.initial device_initial) run)⟩

end ExtentFs
