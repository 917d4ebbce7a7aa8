import ExtentFs.Invariants.Sound

namespace ExtentFs

open Base

/-- A live directory knows the number of its entries in use, and is removed when it has none. -/
structure EntriesCounted (fs : FsCtx) : Prop where
  numEntries : ∀ d, fs.live d = true → sIsdir (fs.itable d).mode = true →
    (fs.itable d).numEntries = (fs.itable d).entries.countP fs.inUse
  rmdir : ∀ env fuel path i, IsDirectory fs path → fs.resolve path = some i → i ≠ 0 →
    ((∃ fs', Call.exec env fuel fs (.rmdir path) = .ok (fs', -eNotEmpty)) ↔
      ∃ a ∈ (fs.itable i).entries, fs.inUse a = true)

theorem Tree.rmdir_answers {fs : FsCtx} (tree : Tree fs) {env : Env} {path : CString} {i : Nat}
    (directory : IsDirectory fs path) (found : fs.resolve path = some i) (other : i ≠ 0) :
    (∃ fs', a1fsRmdir env fs path = .ok (fs', -eNotEmpty)) ↔
      ∃ a ∈ (fs.itable i).entries, fs.inUse a = true := by
  have number := getInodeNum_of_resolve found
  have walk := tree.walk_of_resolve found
  obtain ⟨inside, -⟩ := live_iff.mp (tree.alive_of_walk walk)
  have dir : sIsdir (fs.itable i).mode = true := by
    obtain ⟨-, j, found', dir⟩ := directory
    rw [found] at found'
    cases found'
    exact dir
  have counted := tree.counted i dir
  rw [← List.countP_pos_iff, ← counted]
  constructor
  · rintro ⟨fs', returned⟩
    have keepsRoot : OnRmdir fs (.rmdir path) fun i => i ≠ 0 := by
      intro j walked
      rw [number] at walked
      cases walked
      exact other
    obtain ⟨j, p, found', -, -, -, ⟨-, some, -⟩ | ⟨code, -⟩⟩ :=
      tree.rmdir directory keepsRoot returned
    · rw [found] at found'
      cases found'
      exact some
    · cases code
  · intro some
    have read : fs.inodeAt (i : Int) = .ok (fs.itable i) := inodeAt_ok.mpr ⟨⟨by omega, inside⟩, rfl⟩
    refine ⟨fs, ?_⟩
    rw [a1fsRmdir, number, ok_bind, read, ok_bind, if_pos some]
    rfl

/-- Directories count their entries while no call changes the blocks of another inode. -/
theorem entries_counted {fs : FsCtx} (run : a1fs.Reaches Sound fs) : EntriesCounted fs := by
  obtain ⟨-, tree⟩ := tree_of_reaches run fun _ _ sound => sound
  exact ⟨fun d _ dir => tree.counted d dir,
    fun env fuel path i directory found other => tree.rmdir_answers directory found other⟩

def pathBC : CString := ⟨[47#8, 98#8, 47#8, 99#8], by decide⟩

def enteredRun : Option FsCtx :=
  runCalls Sound quiet 10 device
    [.create pathA regularMode, .truncate pathA 100, .mkdir pathB 0, .create pathBC regularMode,
      .unlink pathBC, .create pathBC regularMode]

theorem entries_counted_run : ∃ fs, enteredRun = some fs ∧ EntriesCounted fs := by
  have returns : enteredRun.isSome := by decide +kernel
  obtain ⟨fs, run⟩ := Option.isSome_iff_exists.mp returns
  exact ⟨fs, run, entries_counted (runCalls_reaches (.initial device_initial) run)⟩

/-- A block that a file has given up but still covers becomes the block of a directory, and is
    zeroed when the file grows. -/
def zeroedRun : Option FsCtx :=
  runCalls (fun fs event => Documented fs event.call) quiet 10 device
    [.create pathA regularMode, .truncate pathA 8192, .truncate pathA 100, .mkdir pathB 0,
      .create pathBC regularMode, .truncate pathA 8192]

theorem entries_counted_fails :
    ∃ fs, a1fs.Reaches (fun fs event => Documented fs event.call) fs ∧ ¬ EntriesCounted fs := by
  have zeroed : ∃ fs ∈ zeroedRun, fs.live 2 = true ∧ sIsdir (fs.itable 2).mode = true ∧
      (fs.itable 2).numEntries = 1 ∧ (fs.itable 2).entries.countP fs.inUse = 16 := by decide +kernel
  obtain ⟨fs, run, alive, dir, one, all⟩ := zeroed
  refine ⟨fs, runCalls_reaches (.initial device_initial) run, fun counted => ?_⟩
  have same := counted.numEntries 2 alive dir
  omega

end ExtentFs
