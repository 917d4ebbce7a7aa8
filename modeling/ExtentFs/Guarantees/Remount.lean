import ExtentFs.Effects.Confined
import ExtentFs.Effects.Image
import ExtentFs.Guarantees.Inodes
import ExtentFs.Invariants.Requests

namespace ExtentFs

open Base Base.Bytes

section Reached

variable {blocks nInodes d : Nat} {now : Timespec} {fs0 fs : FsCtx} {guard : FsCtx → Exchange → Prop}

theorem noExtent_fits : A1fsExtent.Fits ⟨0, 0, 0⟩ := ⟨by decide, by decide, by decide⟩

theorem rootInode_fits : (rootInode now).Fits := by
  constructor
  all_goals dsimp only [rootInode]
  · decide
  · decide
  · decide
  · decide
  · decide
  · exact fun _ _ => noExtent_fits
  · exact fun _ _ => rfl

theorem zeroInode_fits : zeroInode.Fits :=
  ⟨by decide, by decide, by decide, by decide, by decide,
    fun k _ => by rw [zeroInode_extent]; exact noExtent_fits, fun k _ => zeroInode_extent k⟩

theorem Geometry.fits (g : Geometry blocks nInodes d) : (formatted blocks nInodes d now).sb.Fits := by
  have small := g.small
  obtain ⟨pos, few, someBitmap, byte, some, covered⟩ := g
  constructor
  all_goals
    simp only [formatted]
    omega

theorem Geometry.laid (g : Geometry blocks nInodes d) : (formatted blocks nInodes d now).Laid := by
  have superblock : (formatted blocks nInodes d now).sb.Fits := g.fits
  obtain ⟨pos, few, someBitmap, byte, some, covered⟩ := g
  refine ⟨superblock, ?_, ?_, ?_, ?_, ?_, fun k beyond => ?_, fun k beyond => rfl, fun a beyond => rfl,
    fun i inside => ?_, fun i outside => ?_⟩
  · simp only [formatted]
    omega
  · simp only [formatted]
  · simp only [formatted]
    omega
  · simp only [formatted]
    omega
  · simp only [formatted]
    omega
  · simp only [formatted] at beyond ⊢
    rw [if_neg (by omega)]
  · simp only [formatted]
    split
    · exact rootInode_fits
    · exact zeroInode_fits
  · simp only [formatted] at outside ⊢
    rw [if_neg (by omega)]

theorem formatted_narrow (i : Nat) : ((formatted blocks nInodes d now).itable i).Narrow := by
  rcases formatted_inode blocks nInodes d now i with root | zero
  · have fits : (rootInode now).Fits := rootInode_fits
    rw [root]
    exact ⟨fits.links, fits.size, fits.numEntries, .inl rfl, fits.slots⟩
  · have fits := zeroInode_fits
    rw [zero]
    exact ⟨fits.links, fits.size, fits.numEntries, .inr (by decide), fits.slots⟩

theorem confined_of_driver (run : driver.Reaches guard fs) :
    ∃ blocks nInodes d now, Geometry blocks nInodes d ∧ (formatted blocks nInodes d now).Confined fs := by
  refine run.invariant (fun fs => ∃ blocks nInodes d now, Geometry blocks nInodes d ∧
    (formatted blocks nInodes d now).Confined fs) (fun s start => ?_) ?_
  · obtain ⟨blocks, nInodes, d, now, g, rfl⟩ := Initial.shape start
    exact ⟨blocks, nInodes, d, now, g, .refl⟩
  · rintro s x s' ⟨blocks, nInodes, d, now, g, before⟩ - ⟨fuel, served⟩
    exact ⟨blocks, nInodes, d, now, g, serve_stays before _ served⟩

theorem counted_of_driver (run : driver.Reaches guard fs) : InodesCounted fs :=
  invariant_of_driver run Geometry.inodesCounted (fun _ counted effect => counted.effect effect)
    fun counted => counted.same rfl rfl rfl

/-- The layout is read off the state that is written out. -/
theorem FsCtx.Confined.layout (confined : fs0.Confined fs) :
    fs.sb.magic = fs0.sb.magic ∧ fs.sb.size = fs0.sb.size ∧
      fs.sb.sbFirstDataBlock = fs0.sb.sbFirstDataBlock ∧ fs.sb.sbFirstEmptyDb = fs0.sb.sbFirstEmptyDb ∧
      fs.sb.sbTotalDataBlocks = fs0.sb.sbTotalDataBlocks ∧ fs.sb.sbBlockBitmap = fs0.sb.sbBlockBitmap ∧
      fs.sb.sbInodeBitmap = fs0.sb.sbInodeBitmap ∧ fs.sb.sbInodeTable = fs0.sb.sbInodeTable ∧
      fs.sb.sbInodesCount = fs0.sb.sbInodesCount := by
  have same := confined.superblock
  rw [← same]
  exact ⟨rfl, rfl, rfl, rfl, rfl, rfl, rfl, rfl, rfl⟩

/-- Every state of the driver whose counters fit can be written out. -/
theorem laid_of_driver (run : driver.Reaches guard fs) (fits : fs.InRange) : fs.Laid := by
  obtain ⟨blocks, nInodes, d, now, g, confined⟩ := confined_of_driver run
  have steady := steady_of_driver run
  have numbered := numbered_of_driver run
  have counted := counted_of_driver run
  have start : (formatted blocks nInodes d now).Laid := g.laid
  obtain ⟨magic, size, fdb, fed, total, blockBitmap, inodeBitmap, inodeTable, count⟩ := confined.layout
  have free : fs.freeInodes.card ≤ fs.sb.sbInodesCount.toNat := Bitmap.clear_card_le
  have superblock : fs.sb.Fits := by
    have sb := start.superblock
    refine ⟨by rw [size]; exact sb.size, by rw [fdb]; exact sb.firstDataBlock, by rw [fed]; exact sb.firstEmptyDb,
      by rw [total]; exact sb.totalDataBlocks, by rw [blockBitmap]; exact sb.blockBitmap,
      by rw [inodeBitmap]; exact sb.inodeBitmap, by rw [inodeTable]; exact sb.inodeTable, fits.freeBlocks,
      ?_, by rw [count]; exact sb.inodes, fits.usedDirs⟩
    have few := steady.shaped.fewInodes
    rw [counted.counter]
    omega
  refine ⟨superblock, ?_, ?_, ?_, ?_, ?_, fun k beyond => ?_, fun k beyond => ?_, fun a beyond => ?_,
    fun i inside => ?_, fun i outside => ?_⟩
  · rw [inodeBitmap]
    exact start.first
  · rw [inodeBitmap, blockBitmap, confined.inodeLength]
    exact start.inodeBits
  · rw [blockBitmap, inodeTable, confined.blockLength]
    exact start.blockBits
  · rw [inodeTable, count, fdb]
    exact start.table
  · rw [fdb, confined.size]
    exact start.data
  · rw [confined.inodeLength] at beyond
    rw [confined.inodeTail k beyond, start.inodeTail k beyond]
  · rw [confined.blockLength] at beyond
    rw [confined.blockTail k beyond, start.blockTail k beyond]
  · rw [confined.dataSize] at beyond
    rw [confined.data a beyond, start.dataTail a beyond]
  · have narrow := confined.inodes i (formatted_narrow i)
    have sane := steady.sane i
    have covered := numbered.covered
    refine ⟨narrow.links, narrow.size, ?_, ?_, narrow.numEntries, fun k low => ?_, narrow.slots⟩
    · have low := sane.low
      have high := sane.high
      omega
    · have indirect := narrow.indirect
      omega
    · have first := numbered.start i k
      have count := numbered.count i k
      exact ⟨by omega, by omega, fits.extents i inside k low⟩
  · rw [count] at outside
    rw [confined.others i outside, start.others i outside]

end Reached

section Sessions

variable {file file' : ImageFile} {mapping : Bytes} {fs : FsCtx} {guard : FsCtx → Exchange → Prop} {s : Session}

/-- A condition on the requests of a session. -/
def Session.guarded (guard : FsCtx → Exchange → Prop) : Session → SessionEvent → Prop
  | .mounted _ fs, .exchange x => guard fs x
  | _, _ => True

/-- The file system that is mounted, or that a mount would bring back. -/
def Session.Holds (P : FsCtx → Prop) : Session → Prop
  | .unmounted file => ∃ fs, a1fsInit file = some fs ∧ P fs
  | .mounted _ fs => P fs

theorem a1fsInit_eq {fs : FsCtx} (some : file.size ≠ 0) (whole : file.size % 4096 = 0)
    (valid : fsCtxInit file.bytes file.size = (fs, true)) : a1fsInit file = .some fs := by
  rw [a1fsInit, mapFile, if_neg some, if_neg (by omega), Option.bind_some, valid]
  rfl

theorem mapFile_some {image : Bytes} (mapped : mapFile file 4096 = .some image) :
    file.size ≠ 0 ∧ file.size % 4096 = 0 ∧ image = file.bytes := by
  rw [mapFile] at mapped
  split at mapped
  · cases mapped
  · rename_i some
    split at mapped
    · cases mapped
    · rename_i whole
      exact ⟨some, by omega, (Option.some.inj mapped).symm⟩

theorem a1fsInit_some (init : a1fsInit file = some fs) : fs = (fsCtxInit file.bytes file.size).1 := by
  rw [a1fsInit, Option.bind_eq_some_iff] at init
  obtain ⟨image, mapped, init⟩ := init
  obtain ⟨-, -, rfl⟩ := mapFile_some mapped
  change (if (fsCtxInit file.bytes file.size).2 then some (fsCtxInit file.bytes file.size).1 else none) =
    some fs at init
  split at init
  · exact (Option.some.inj init).symm
  · cases init

theorem Formatted.mounts (formatted : Formatted file) : ∃ fs, a1fsInit file = some fs ∧ Initial fs := by
  obtain ⟨blocks, nInodes, now, pos, bound, some, few, size, made, disjoint⟩ := formatted
  have start : Initial (fsCtxInit file.bytes file.size).1 := by
    rw [size] at made disjoint ⊢
    exact ⟨now, blocks, nInodes, file.bytes, pos, bound, some, few, made, disjoint, rfl⟩
  obtain ⟨blocks', nInodes', d, now', g, shape⟩ := start.shape
  refine ⟨_, a1fsInit_eq (by omega) (by omega) (Prod.ext rfl ?_), start⟩
  change ((fsCtxInit file.bytes file.size).1.sb.magic == a1fsMagic) = true
  rw [shape]
  exact beq_self_eq_true a1fsMagic

/-- A reached state is brought back by a mount after an unmount. -/
theorem mount_after_unmount (run : driver.Reaches guard fs) (fits : fs.InRange) (mapping : Bytes) :
    a1fsInit (a1fsDestroy mapping fs) = some fs := by
  obtain ⟨blocks, nInodes, d, now, g, confined⟩ := confined_of_driver run
  have laid := laid_of_driver run fits
  have size : fs.size = 4096 * blocks := confined.size
  have some := g.someData
  refine a1fsInit_eq ?_ ?_ ?_
  · change fs.size ≠ 0
    omega
  · change fs.size % 4096 = 0
    omega
  · have magic : fs.sb.magic = a1fsMagic := confined.layout.1
    change fsCtxInit (fs.image mapping) fs.size = _
    rw [laid.mount mapping, magic]
    rfl

theorem formatted_inRange {blocks nInodes d : Nat} {now : Timespec} (g : Geometry blocks nInodes d) :
    (formatted blocks nInodes d now).InRange := by
  have laid : (formatted blocks nInodes d now).Laid := g.laid
  exact ⟨laid.superblock.freeBlocks, laid.superblock.usedDirs,
    fun i inside k low => ((laid.inodes i inside).extents k low).size⟩

theorem backed_of_session (formatted : Formatted file)
    (run : (sessions file).Reaches (Session.guarded guard) s) :
    s.Holds fun fs => driver.Reaches guard fs ∧ fs.InRange := by
  refine run.invariant (Session.Holds fun fs => driver.Reaches guard fs ∧ fs.InRange) ?_ ?_
  · rintro s rfl
    obtain ⟨fs, init, start⟩ := formatted.mounts
    obtain ⟨blocks, nInodes, d, now, g, rfl⟩ := start.shape
    exact ⟨_, init, .initial start, formatted_inRange g⟩
  · rintro s event s' holds allowed step
    cases step with
    | mount init =>
      obtain ⟨fs, same, backed⟩ := holds
      rw [init] at same
      cases same
      exact backed
    | exchange served fits => exact ⟨.step holds.1 allowed served, fits⟩
    | unmount => exact ⟨_, mount_after_unmount holds.1 holds.2 _, holds⟩

theorem initial_file (start : Initial fs) : ∃ file, Formatted file ∧ a1fsInit file = some fs := by
  obtain ⟨now, blocks, nInodes, image, pos, bound, some, few, made, disjoint, rfl⟩ := start
  have formatted : Formatted ⟨image, 4096 * blocks⟩ :=
    ⟨blocks, nInodes, now, pos, bound, some, few, rfl, made, disjoint⟩
  obtain ⟨fs, init, -⟩ := formatted.mounts
  have same := a1fsInit_some init
  exact ⟨_, formatted, same ▸ init⟩

theorem guarded_true (s : Session) (event : SessionEvent) : s.guarded (fun _ _ => True) event := by
  cases s <;> cases event <;> trivial

/-- A device on which a file is made, unmounted and mounted again. -/
theorem device_session : ∃ file mapping fs, Formatted file ∧ a1fsInit file = some device ∧
    (sessions file).Reaches (Session.guarded fun _ _ => True) (.mounted mapping fs) ∧ fs.live 1 = true := by
  obtain ⟨file, formatted, init⟩ := initial_file device_initial
  have creates : ∃ out, Request.serve quiet 10 device (.change (.create pathA regularMode)) = .ok out ∧
      out.1.live 1 = true ∧ out.1.InRange := by
    decide +kernel
  obtain ⟨⟨fs, reply⟩, served, alive, fits⟩ := creates
  have step : driver.Step device ⟨.change (.create pathA regularMode), quiet, reply⟩ fs := ⟨10, served⟩
  have reached : driver.Reaches (fun _ _ => True) fs := .step (.initial device_initial) trivial step
  have again : a1fsInit (a1fsDestroy file.bytes fs) = some fs := mount_after_unmount reached fits _
  have mounted : (sessions file).Reaches (Session.guarded fun _ _ => True) (.mounted file.bytes device) :=
    .step (.initial rfl) (guarded_true _ _) (.mount init)
  have changed : (sessions file).Reaches (Session.guarded fun _ _ => True) (.mounted file.bytes fs) :=
    .step mounted (guarded_true _ _) (.exchange step fits)
  have unmounted : (sessions file).Reaches (Session.guarded fun _ _ => True)
      (.unmounted (a1fsDestroy file.bytes fs)) := .step changed (guarded_true _ _) .unmount
  exact ⟨file, _, fs, formatted, init, .step unmounted (guarded_true _ _) (.mount again), alive⟩

/-- Unmounting writes the whole state out: in every run of mounts, requests and unmounts, a mount of the
    file that an unmount would leave brings back the state that the driver has. -/
theorem remount_restores (formatted : Formatted file)
    (run : (sessions file).Reaches (Session.guarded guard) (.mounted mapping fs)) :
    a1fsInit (a1fsDestroy mapping fs) = some fs := by
  obtain ⟨reached, fits⟩ := backed_of_session formatted run
  exact mount_after_unmount reached fits mapping

theorem remount_restores_run : ∃ fs mapping, fs.live 1 = true ∧ a1fsInit (a1fsDestroy mapping fs) = some fs := by
  obtain ⟨file, mapping, fs, formatted, -, run, alive⟩ := device_session
  exact ⟨fs, mapping, alive, remount_restores formatted run⟩

/-- Mounts and unmounts are invisible: a session holds a state that the driver reaches by the same kind
    of requests without them, and an unmounted image can always be mounted. -/
theorem sessions_invisible (formatted : Formatted file)
    (run : (sessions file).Reaches (Session.guarded guard) s) : s.Holds (driver.Reaches guard) := by
  have backed := backed_of_session formatted run
  cases s with
  | unmounted file' =>
    obtain ⟨fs, init, reached, -⟩ := backed
    exact ⟨fs, init, reached⟩
  | mounted mapping fs => exact backed.1

theorem sessions_invisible_run : ∃ mapping fs, fs.live 1 = true ∧
    (Session.mounted mapping fs).Holds (driver.Reaches fun _ _ => True) := by
  obtain ⟨file, mapping, fs, formatted, -, run, alive⟩ := device_session
  exact ⟨mapping, fs, alive, sessions_invisible formatted run⟩

/-- An image that a session has left comes out of a session without requests as it was, byte for byte. -/
theorem idle_session (formatted : Formatted file)
    (run : (sessions file).Reaches (Session.guarded guard) (.mounted mapping fs)) :
    ∃ fs', a1fsInit (a1fsDestroy mapping fs) = some fs' ∧
      a1fsDestroy (a1fsDestroy mapping fs).bytes fs' = a1fsDestroy mapping fs := by
  obtain ⟨reached, fits⟩ := backed_of_session formatted run
  have laid := laid_of_driver reached fits
  have again : fs.image (fs.image mapping) = fs.image mapping := laid.image_again
  refine ⟨fs, mount_after_unmount reached fits mapping, ?_⟩
  change (⟨fs.image (fs.image mapping), fs.size⟩ : ImageFile) = ⟨fs.image mapping, fs.size⟩
  rw [again]

theorem idle_session_run : ∃ mapping fs, fs.live 1 = true ∧ ∃ fs', a1fsInit (a1fsDestroy mapping fs) = some fs' ∧
    a1fsDestroy (a1fsDestroy mapping fs).bytes fs' = a1fsDestroy mapping fs := by
  obtain ⟨file, mapping, fs, formatted, -, run, alive⟩ := device_session
  exact ⟨mapping, fs, alive, idle_session formatted run⟩

end Sessions

section Bytes

variable {file file' : ImageFile} {fs0 fs : FsCtx} {rest : Bytes} {a : Nat}
  {guard : FsCtx → Exchange → Prop} {s : Session}

/-- The places of the counters in the superblock. -/
def CounterByte (a : Nat) : Prop :=
  offFreeBlocksCount ≤ a ∧ a < offFreeBlocksCount + 8 ∨ offFreeInodesCount ≤ a ∧ a < offFreeInodesCount + 8 ∨
    offUsedDirsCount ≤ a ∧ a < offUsedDirsCount + 8

/-- The bytes that a request can change: the counters, the bitmaps, the fields of the inodes and the
    data. -/
def FsCtx.Changeable (fs : FsCtx) (a : Nat) : Prop :=
  CounterByte a ∨
    4096 * fs.sb.sbInodeBitmap ≤ a ∧ a < 4096 * fs.sb.sbInodeTable ∨
    (∃ i : Nat, (i : Int) < fs.sb.sbInodesCount ∧ 4096 * fs.sb.sbInodeTable + 256 * i ≤ a ∧
      a < 4096 * fs.sb.sbInodeTable + 256 * i + 188) ∨
    4096 * fs.sb.sbFirstDataBlock ≤ a ∧ a < fs.size

theorem A1fsSuperblock.write_layout {sb : A1fsSuperblock} (same : sb.SameLayout (.read rest))
    (outside : ¬ CounterByte a) : sb.write rest a = rest a := by
  rw [← same]
  simp only [A1fsSuperblock.write, A1fsSuperblock.read, BitVec.ofNat_toNat, BitVec.setWidth_eq,
    BitVec.ofInt_toInt, set64_word64, set8_byte]
  rw [CounterByte, offFreeBlocksCount, offFreeInodesCount, offUsedDirsCount] at outside
  simp only [offFreeBlocksCount, offFreeInodesCount, offUsedDirsCount, offInodesCount]
  generalize BitVec.ofInt 64 sb.sbFreeBlocksCount = x
  generalize BitVec.ofInt 64 sb.sbFreeInodesCount = y
  have count : rest.word64 40 = ((rest.set64 24 x).set64 32 y).word64 40 := by
    rw [word64_set64_of_disjoint _ (by omega), word64_set64_of_disjoint _ (by omega)]
  rw [count, set64_outside _ (by omega), set64_word64, set64_outside _ (by omega), set64_outside _ (by omega)]

theorem FsCtx.Laid.image_unchanged (laid : fs.Laid) (same : fs.sb.SameLayout (.read rest))
    (outside : ¬ fs.Changeable a) : fs.image rest a = rest a := by
  obtain ⟨-, first, inodeBits, blockBits, table, data, -, -, -, -, -⟩ := laid
  rw [FsCtx.Changeable, not_or, not_or, not_or, not_exists] at outside
  obtain ⟨counter, bitmaps, inodes, region⟩ := outside
  have region' : ¬ (4096 * fs.sb.sbFirstDataBlock ≤ a ∧ a < 4096 * fs.sb.sbFirstDataBlock + fs.dataSize) := by
    rw [FsCtx.dataSize]
    omega
  have gaps : ∀ i < fs.sb.sbInodesCount.toNat, a < 4096 * fs.sb.sbInodeTable + 256 * i ∨
      4096 * fs.sb.sbInodeTable + 256 * i + 188 ≤ a := by
    intro i below
    have gap := inodes i
    omega
  rw [FsCtx.image, paste_outside (by omega), writeInodes_gap gaps, paste_outside (by omega),
    paste_outside (by omega), A1fsSuperblock.write_layout same counter]

theorem FsCtx.Confined.changeable (confined : fs0.Confined fs) : fs.Changeable a ↔ fs0.Changeable a := by
  obtain ⟨-, -, fdb, -, -, -, inodeBitmap, inodeTable, count⟩ := confined.layout
  rw [FsCtx.Changeable, FsCtx.Changeable, fdb, inodeBitmap, inodeTable, count, confined.size]

/-- What is left of a file in which only a file system's own bytes have changed. -/
def Session.Unspoilt (file : ImageFile) (fs0 : FsCtx) : Session → Prop
  | .unmounted file' => file'.size = file.size ∧ (∃ fs, a1fsInit file' = some fs ∧ fs0.Confined fs) ∧
      ∀ a, ¬ fs0.Changeable a → file'.bytes a = file.bytes a
  | .mounted mapping fs => fs0.Confined fs ∧ fs0.sb.SameLayout (.read mapping) ∧
      ∀ a, ¬ fs0.Changeable a → mapping a = file.bytes a

theorem unspoilt_of_session (formatted : Formatted file) (init : a1fsInit file = some fs0)
    (run : (sessions file).Reaches (Session.guarded guard) s) : s.Unspoilt file fs0 := by
  refine run.relative (fun s run => backed_of_session formatted run) (Session.Unspoilt file fs0) ?_ ?_
  · rintro s rfl
    exact ⟨rfl, ⟨fs0, init, .refl⟩, fun a _ => rfl⟩
  · rintro s event s' backed unspoilt allowed step
    cases step with
    | @mount file' fs mounted =>
      obtain ⟨size, ⟨fs', same, confined⟩, bytes⟩ := unspoilt
      rw [mounted] at same
      cases same
      have sb : fs.sb = A1fsSuperblock.read file'.bytes := by rw [a1fsInit_some mounted, fsCtxInit]
      have layout := confined.superblock
      rw [sb] at layout
      exact ⟨confined, layout, bytes⟩
    | exchange served fits =>
      obtain ⟨confined, layout, bytes⟩ := unspoilt
      obtain ⟨fuel, returned⟩ := served
      exact ⟨serve_stays confined _ returned, layout, bytes⟩
    | @unmount mapping fs =>
      obtain ⟨confined, layout, bytes⟩ := unspoilt
      have again : a1fsInit (a1fsDestroy mapping fs) = some fs := mount_after_unmount backed.1 backed.2 mapping
      have laid := laid_of_driver backed.1 backed.2
      have size : fs0.size = file.size := by rw [a1fsInit_some init, fsCtxInit]
      refine ⟨confined.size.trans size, ⟨fs, again, confined⟩, fun a outside => ?_⟩
      rw [← bytes a outside]
      exact laid.image_unchanged (confined.superblock.swap layout) fun inside =>
        outside (confined.changeable.mp inside)

/-- However often a formatted image is mounted, used and unmounted, only the counters, the bitmaps, the
    fields of inodes and the data region differ from what `mkfs` wrote. -/
theorem format_preserved (formatted : Formatted file) (init : a1fsInit file = some fs0)
    (run : (sessions file).Reaches (Session.guarded guard) (.unmounted file')) :
    file'.size = file.size ∧ ∀ a, ¬ fs0.Changeable a → file'.bytes a = file.bytes a := by
  have unspoilt : (Session.unmounted file').Unspoilt file fs0 := unspoilt_of_session formatted init run
  exact ⟨unspoilt.1, unspoilt.2.2⟩

theorem format_preserved_run : ∃ file file' : ImageFile, file'.size = file.size ∧
    ∀ a, ¬ device.Changeable a → file'.bytes a = file.bytes a := by
  obtain ⟨file, mapping, fs, formatted, init, run, -⟩ := device_session
  have unmounted : (sessions file).Reaches (Session.guarded fun _ _ => True)
      (.unmounted (a1fsDestroy mapping fs)) := .step run (guarded_true _ _) .unmount
  exact ⟨file, _, format_preserved formatted init unmounted⟩

end Bytes

end ExtentFs
