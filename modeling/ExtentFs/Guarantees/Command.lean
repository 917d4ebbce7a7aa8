import ExtentFs.Base.Agree
import ExtentFs.Guarantees.Remount
import ExtentFs.Model.Mkfs

namespace ExtentFs

open Base Base.Bytes

section Writes

variable {image : Bytes} {size nInodes : Nat} {now : Timespec}

/-- The two translations of `mkfs` accept the same images and write the same bytes into them. -/
theorem mkfs_writes : Agree (fun out out' => out = if out'.2 then some out'.1 else none)
    (mkfs image size nInodes now) (mkfsWrites image size nInodes now) := by
  unfold mkfs mkfsWrites
  by_cases present : image.word64 offMagic = a1fsMagic
  · have test : a1fsIsPresent image = true := decide_eq_true present
    rw [if_pos present, if_pos test]
    exact .pure rfl
  · have test : ¬ a1fsIsPresent image = true := by
      rw [a1fsIsPresent, decide_eq_true_eq]
      exact present
    rw [if_neg present, if_neg test]
    refine .next fun b1 _ => .ite (fun _ => .pure rfl) fun _ => ?_
    refine .next fun b2 _ => .ite (fun _ => .pure rfl) fun _ => ?_
    refine .next fun b3 _ => .ite (fun _ => .pure rfl) fun _ => ?_
    refine .next fun k _ => .next fun b4 _ => .ite (fun _ => .pure rfl) fun _ => ?_
    refine .next fun rooted _ => ?_
    cases rooted with
    | none => exact .pure rfl
    | some image => exact .pure rfl

theorem mkfsWrites_present (present : a1fsIsPresent image = true) :
    mkfsWrites image size nInodes now = .ok (image, false) := if_pos present

theorem blank_absent : Bytes.word64 (fun _ => 0) offMagic ≠ a1fsMagic := by
  simp only [Bytes.word64]
  decide

/-- What is written before `mkfs` gives up does not reach the magic number. -/
theorem mkfsWrites_magic : Yields (mkfsWrites image size nInodes now) fun out =>
    out.2 = false → out.1.word64 offMagic = image.word64 offMagic := by
  unfold mkfsWrites
  have counted : ((image.set64 offFreeInodesCount (BitVec.ofNat 64 nInodes)).set64 offInodesCount
      (BitVec.ofNat 64 nInodes)).word64 offMagic = image.word64 offMagic := by
    rw [word64_set64_of_disjoint _ (by decide), word64_set64_of_disjoint _ (by decide)]
  have field (image : Bytes) (a : Nat) (v : Byte) (beyond : 16 ≤ a) :
      (image.set8 a v).word64 offMagic = image.word64 offMagic :=
    word64_set8 v (by rw [offMagic]; omega)
  refine .ite (fun _ => .pure fun _ => rfl) fun _ => .next fun b1 _ => ?_
  refine .ite (fun _ => .pure fun _ => rfl) fun _ => .next fun b2 _ => ?_
  refine .ite (fun _ => .pure fun _ => counted) fun _ => .next fun b3 _ => ?_
  refine .ite (fun _ => .pure fun _ => ?_) fun _ => .next fun k _ => .next fun b4 _ => ?_
  · rw [field _ _ _ (by decide), counted]
  refine .ite (fun _ => .pure fun _ => ?_) fun _ => .next fun rooted _ => ?_
  · rw [field _ _ _ (by decide), counted]
  cases rooted with
  | none =>
    refine .pure fun _ => ?_
    rw [field _ _ _ (by decide), field _ _ _ (by decide), field _ _ _ (by decide), field _ _ _ (by decide),
      counted]
  | some image => exact .pure fun failed => by cases failed

theorem mkfsWrites_formats (whole : size % 4096 = 0) : Yields (mkfsWrites image size nInodes now) fun out =>
    out.2 = true → (A1fsSuperblock.read out.1).magic = a1fsMagic ∧
      mkfs image size nInodes now = .ok (some out.1) := by
  rintro ⟨out, formatted⟩ written rfl
  obtain ⟨result, made, same⟩ := mkfs_writes.of_ok_right written
  obtain rfl : result = some out := same
  refine ⟨?_, made⟩
  obtain ⟨blocks, rfl⟩ : ∃ blocks, size = 4096 * blocks := ⟨size / 4096, by omega⟩
  obtain ⟨-, k, -, rooted, -, rfl⟩ := mkfs_eq_ok.mp made
  rw [read_fillSuperblock]

end Writes

section Arguments

variable {args : List GetOpt} {operands : List CString} {opts opts' : MkfsOpts}

/-- Options that are accepted, and not for help, say which flags were among the arguments. -/
structure Parsed (args : List GetOpt) (opts opts' : MkfsOpts) : Prop where
  help : opts'.help = opts.help
  force : opts'.force = true ↔ opts.force = true ∨ .f ∈ args
  zero : opts'.zero = true ↔ opts.zero = true ∨ .z ∈ args
  inodes : 0 < opts'.nInodes
  fits : opts.nInodes < 2 ^ 64 → opts'.nInodes < 2 ^ 64

theorem strtoul_fits (s : List Byte) : strtoul s < 2 ^ 64 := by
  rw [strtoul]
  generalize List.foldl _ 0 _ = n
  by_cases large : 2 ^ 64 ≤ n
  · rw [if_pos large]
    decide
  · rw [if_neg large]
    split
    · exact Nat.mod_lt _ (by decide)
    · exact Nat.lt_of_not_le large

theorem parseArgs_parsed (h : parseArgs operands args opts = .ok (some opts')) :
    .h ∈ args ∧ opts'.help = true ∨ Parsed args opts opts' := by
  induction args generalizing opts with
  | nil =>
    simp only [parseArgs] at h
    split at h
    · cases h
    · have accepted := pure_eq_ok.mp h
      split at accepted
      · cases accepted
      · rename_i some
        cases accepted
        exact .inr ⟨rfl, by simp, by simp, Nat.pos_of_ne_zero some, id⟩
  | cons option args ih =>
    cases option with
    | i optarg =>
      rcases ih h with ⟨member, help⟩ | parsed
      · exact .inl ⟨List.mem_cons_of_mem _ member, help⟩
      · have fits := parsed.fits (strtoul_fits _)
        exact .inr ⟨parsed.help, by simp [parsed.force], by simp [parsed.zero], parsed.inodes, fun _ => fits⟩
    | f =>
      rcases ih h with ⟨member, help⟩ | parsed
      · exact .inl ⟨List.mem_cons_of_mem _ member, help⟩
      · exact .inr ⟨parsed.help, by simp [parsed.force], by simp [parsed.zero], parsed.inodes, parsed.fits⟩
    | z =>
      rcases ih h with ⟨member, help⟩ | parsed
      · exact .inl ⟨List.mem_cons_of_mem _ member, help⟩
      · exact .inr ⟨parsed.help, by simp [parsed.force], by simp [parsed.zero], parsed.inodes, parsed.fits⟩
    | h =>
      cases h
      exact .inl ⟨List.mem_cons_self, rfl⟩
    | v => cases h
    | unknown => cases h

theorem parseArgs_path (accepted : parseArgs operands args opts = .ok (some opts')) (noHelp : .h ∉ args) :
    opts'.imgPath = operands.head? := by
  induction args generalizing opts with
  | nil =>
    simp only [parseArgs] at accepted
    split at accepted
    · cases accepted
    · have chosen := pure_eq_ok.mp accepted
      split at chosen
      · cases chosen
      · cases chosen
        rfl
  | cons option args ih =>
    have rest : .h ∉ args := fun member => noHelp (List.mem_cons_of_mem _ member)
    cases option with
    | i optarg => exact ih accepted rest
    | f => exact ih accepted rest
    | z => exact ih accepted rest
    | h => exact absurd List.mem_cons_self noHelp
    | v => cases accepted
    | unknown => cases accepted

end Arguments

section Main

variable {args : List GetOpt} {operands : List CString} {now : Timespec} {disk disk' : Disk} {status : Nat}

/-- A run of the formatting tool that comes to `mkfs`. -/
structure Formats (now : Timespec) (args : List GetOpt) (operands : List CString) (disk : Disk) (status : Nat)
    (disk' : Disk) (opts : MkfsOpts) (path : CString) (file : ImageFile) (out : Bytes) : Prop where
  accepted : parseArgs operands args {} = .ok (some opts)
  named : opts.imgPath = some path
  held : disk path = some file
  some : file.size ≠ 0
  whole : file.size % 4096 = 0
  forced : a1fsIsPresent file.bytes = true → .f ∈ args
  left : disk' = disk.put path ⟨out, file.size⟩
  inodes : 0 < opts.nInodes
  fits : opts.nInodes < 2 ^ 64
  written : ∃ formatted, status = (if formatted then 0 else 1) ∧
    mkfsWrites (if .z ∈ args then fun _ => 0 else file.bytes) file.size opts.nInodes now = .ok (out, formatted)

theorem mkfsMain_cases (returned : mkfsMain now args operands disk = .ok (status, disk')) :
    disk' = disk ∧ (status = 1 ∨ .h ∈ args) ∨
      ∃ opts path file out, Formats now args operands disk status disk' opts path file out := by
  rw [mkfsMain, bind_eq_ok] at returned
  obtain ⟨parsed, accepted, returned⟩ := returned
  cases parsed with
  | none =>
    cases returned
    exact .inl ⟨rfl, .inl rfl⟩
  | some opts =>
    rcases parseArgs_parsed accepted with ⟨member, help⟩ | parsed
    · dsimp only at returned
      rw [if_pos help] at returned
      cases returned
      exact .inl ⟨rfl, .inr member⟩
    · have on : ¬ opts.help = true := by
        rw [parsed.help]
        decide
      dsimp only at returned
      rw [if_neg on] at returned
      split at returned
      · cases returned
        exact .inl ⟨rfl, .inl rfl⟩
      · rename_i path named
        split at returned
        · cases returned
          exact .inl ⟨rfl, .inl rfl⟩
        · rename_i file held
          split at returned
          · cases returned
            exact .inl ⟨rfl, .inl rfl⟩
          · rename_i image mapped
            split at returned
            · cases returned
              exact .inl ⟨rfl, .inl rfl⟩
            · rename_i mild
              obtain ⟨some, whole, rfl⟩ := mapFile_some mapped
              obtain ⟨⟨out, formatted⟩, written, returned⟩ := bind_eq_ok.mp returned
              cases returned
              have zero : opts.zero = true ↔ .z ∈ args := by simp [parsed.zero]
              have force : opts.force = true ↔ .f ∈ args := by simp [parsed.force]
              simp only [zero] at written
              refine .inr ⟨opts, path, file, out, accepted, named, held, some, whole, fun present => ?_, rfl,
                parsed.inodes, parsed.fits (by decide), formatted, rfl, written⟩
              by_contra absent
              exact mild ⟨fun on => absent (force.mp on), present⟩

/-- The formatting tool changes no image that holds a file system, and fails when it is asked to, unless it
    is given both -f and -z: with -f alone, `mkfs` itself refuses the image. -/
theorem mkfs_spares {path : CString} {file : ImageFile}
    (returned : mkfsMain now args operands disk = .ok (status, disk')) (held : disk path = some file)
    (present : a1fsIsPresent file.bytes = true) (mild : ¬ (.f ∈ args ∧ .z ∈ args)) :
    disk' path = some file ∧ (operands.head? = some path → .h ∉ args → status = 1) := by
  rcases mkfsMain_cases returned with ⟨same, code⟩ | ⟨opts, target, file', out, formats⟩
  · refine ⟨by rw [same, held], fun _ noHelp => ?_⟩
    rcases code with failed | help
    · exact failed
    · exact absurd help noHelp
  · rw [formats.left, Disk.put]
    by_cases own : path = target
    · have same := formats.held
      rw [← own, held] at same
      cases same
      have kept : .z ∉ args := fun zeroed => mild ⟨formats.forced present, zeroed⟩
      obtain ⟨formatted, code, written⟩ := formats.written
      rw [if_neg kept, mkfsWrites_present present, Except.ok.injEq, Prod.mk.injEq] at written
      obtain ⟨rfl, rfl⟩ := written
      rw [if_pos own]
      exact ⟨rfl, fun _ _ => code⟩
    · rw [if_neg own]
      refine ⟨held, fun named noHelp => ?_⟩
      have chosen := parseArgs_path formats.accepted noHelp
      rw [formats.named, named] at chosen
      exact absurd (Option.some.inj chosen).symm own

/-- A disk with one image file. -/
def diskOf (path : CString) (file : ImageFile) : Disk := fun p => if p = path then some file else none

/-- An image with the magic number of a file system, and blank otherwise. -/
def markedImage : ImageFile := ⟨Bytes.set64 (fun _ => 0) offMagic a1fsMagic, 65536⟩

def blankImage : ImageFile := ⟨fun _ => 0, 65536⟩

/-- "16" -/
def sixteen : CString := ⟨[49#8, 54#8], by decide⟩

theorem mkfs_spares_forced : ∃ status disk',
    mkfsMain ⟨0, 0⟩ [.f, .i sixteen] [pathA] (diskOf pathA markedImage) = .ok (status, disk') ∧
      disk' pathA = some markedImage ∧ status = 1 := by
  have returns : ∃ out, mkfsMain ⟨0, 0⟩ [.f, .i sixteen] [pathA] (diskOf pathA markedImage) = .ok out ∧
      out.1 ≤ 1 := by
    decide +kernel
  obtain ⟨⟨status, disk'⟩, returned, -⟩ := returns
  have present : a1fsIsPresent markedImage.bytes = true := by decide +kernel
  obtain ⟨spared, refused⟩ := mkfs_spares returned (if_pos rfl) present (by decide)
  exact ⟨status, disk', returned, spared, refused rfl (by decide)⟩

theorem a1fsInit_absent {file : ImageFile} (absent : file.bytes.word64 offMagic ≠ a1fsMagic) :
    a1fsInit file = none := by
  have invalid : (fsCtxInit file.bytes file.size).2 = false := beq_false_of_ne absent
  rw [a1fsInit, Option.bind_eq_none_iff]
  intro image mapped
  obtain ⟨-, -, rfl⟩ := mapFile_some mapped
  change (if (fsCtxInit file.bytes file.size).2 then some _ else none) = none
  rw [invalid]
  rfl

/-- What an exit status means, without -h: after 0 the image that was named has been formatted and can be
    mounted, and with -z and regions that are disjoint for the number of inodes asked for the results on
    sessions apply to it; after 1 what can be mounted is as it was. -/
def StatusHolds (args : List GetOpt) (operands : List CString) (disk : Disk) (status : Nat) (disk' : Disk) : Prop :=
  status = 0 ∧ (∃ opts path file file', parseArgs operands args {} = .ok (some opts) ∧ opts.imgPath = some path ∧
      disk path = some file ∧ disk' = disk.put path file' ∧ file'.size = file.size ∧
      (∃ fs, a1fsInit file' = some fs) ∧ (.z ∈ args →
        RegionsDisjoint (.read file'.bytes) file'.size opts.nInodes → Formatted file')) ∨
    status = 1 ∧ ∀ path file fs, disk' path = some file → a1fsInit file = some fs → disk path = some file

/-- The exit status tells the truth: a run that fails leaves nothing half formatted that could be mounted. -/
theorem mkfs_status (returned : mkfsMain now args operands disk = .ok (status, disk')) (noHelp : .h ∉ args)
    (sizes : ∀ path file, disk path = some file → file.size < 2 ^ 63) :
    StatusHolds args operands disk status disk' := by
  rcases mkfsMain_cases returned with ⟨same, code | help⟩ | ⟨opts, target, file, out, formats⟩
  · refine .inr ⟨code, fun path file fs held _ => ?_⟩
    rw [← same]
    exact held
  · exact absurd help noHelp
  · obtain ⟨formatted, code, written⟩ := formats.written
    cases formatted with
    | true =>
      obtain ⟨magic, made⟩ := mkfsWrites_formats formats.whole _ written rfl
      refine .inl ⟨code, opts, target, file, ⟨out, file.size⟩, formats.accepted, formats.named, formats.held,
        formats.left, rfl, ?_, ?_⟩
      · refine ⟨_, a1fsInit_eq formats.some formats.whole (Prod.ext rfl ?_)⟩
        exact beq_iff_eq.mpr magic
      · intro zeroed disjoint
        rw [if_pos zeroed] at made
        have bound := sizes target file formats.held
        have whole := formats.whole
        have nonzero := formats.some
        exact ⟨file.size / 4096, opts.nInodes, now, by omega, by omega, formats.inodes, formats.fits,
          by dsimp only; omega, made, disjoint⟩
    | false =>
      refine .inr ⟨code, fun path file' fs held init => ?_⟩
      rw [formats.left, Disk.put] at held
      split at held
      · rename_i own
        cases held
        have magic : out.word64 offMagic = a1fsMagic := by
          by_contra absent
          have gone : a1fsInit ⟨out, file.size⟩ = none := a1fsInit_absent absent
          rw [gone] at init
          cases init
        have before : out.word64 offMagic = Bytes.word64 (if .z ∈ args then fun _ => 0 else file.bytes) offMagic :=
          mkfsWrites_magic (out, false) written rfl
        rw [magic] at before
        -- what failed to be formatted and mounts held a file system before
        by_cases zeroed : .z ∈ args
        · rw [if_pos zeroed] at before
          exact absurd before.symm blank_absent
        · rw [if_neg zeroed] at before written
          have present : a1fsIsPresent file.bytes = true := decide_eq_true before.symm
          rw [mkfsWrites_present present, Except.ok.injEq, Prod.mk.injEq] at written
          rw [own, formats.held, ← written.1]
      · exact held

theorem mkfs_status_blank : ∃ disk',
    mkfsMain ⟨0, 0⟩ [.z, .i sixteen] [pathA] (diskOf pathA blankImage) = .ok (0, disk') ∧
      StatusHolds [.z, .i sixteen] [pathA] (diskOf pathA blankImage) 0 disk' := by
  have returns : ∃ out, mkfsMain ⟨0, 0⟩ [.z, .i sixteen] [pathA] (diskOf pathA blankImage) = .ok out ∧
      out.1 = 0 := by
    decide +kernel
  obtain ⟨⟨status, disk'⟩, returned, rfl⟩ := returns
  refine ⟨disk', returned, mkfs_status returned (by decide) fun path file held => ?_⟩
  rw [diskOf] at held
  split at held
  · cases held
    decide
  · cases held

end Main

section Room

variable {blocks nInodes : Nat} {now : Timespec}

/-- Blocks for the superblock, the inode bitmap and the inode table, and two more: one of the data bitmap
    and one of data. -/
def HasRoom (blocks nInodes : Nat) : Prop :=
  1 + (nInodes + 32767) / 32768 + (nInodes + 255) / 256 + 2 ≤ blocks

instance : Decidable (HasRoom blocks nInodes) := inferInstanceAs (Decidable (_ ≤ _))

theorem blocksFor_eq {n unit : Nat} (few : n / unit + 1 < 2 ^ 31) :
    blocksFor n unit = (n / unit + (if n % unit ≠ 0 then 1 else 0) : Nat) := by
  rw [blocksFor]
  have positive : (0 : Int) ≤ (n / unit + (if n % unit ≠ 0 then 1 else 0) : Nat) := Int.natCast_nonneg _
  refine toInt_of_fits (by omega) ?_
  split <;> omega

/-- The sizing loop ends with a block of data left when it has two blocks to divide. -/
theorem sizeBitmap_leaves {r : Int} (two : 2 ≤ r) :
    ∃ k, sizeBitmap r (r.toNat + 1) 1 = .ok k ∧ 1 ≤ k ∧ 0 < r - k := by
  have enough : enoughBitmap r (r / 32768 + 1) = true := (enoughBitmap_iff (by omega)).mpr (by omega)
  obtain ⟨k, sizing⟩ : ∃ k, sizeBitmap r (r.toNat + 1) 1 = .ok k :=
    sizeBitmap_ends enough (by omega) (by omega)
  obtain ⟨low, -, minimal⟩ := sizeBitmap_ok sizing
  have least : k ≤ r / 32768 + 1 := by
    by_contra above
    have short := minimal (r / 32768 + 1) (by omega) (by omega)
    rw [enough] at short
    cases short
  exact ⟨k, sizing, low, by omega⟩

/-- On a blank image `mkfs` ends, and formats it when the image has room. -/
theorem mkfs_room (now : Timespec) (small : blocks < 2 ^ 31) (pos : 0 < nInodes) (few : nInodes / 256 + 1 < 2 ^ 31) :
    ∃ out, mkfs (fun _ => 0) (4096 * blocks) nInodes now = .ok out ∧
      (out.isSome = true ↔ HasRoom blocks nInodes) := by
  have bitmap : blocksFor nInodes 32768 = ((nInodes + 32767) / 32768 : Nat) := by
    rw [blocksFor_eq (by omega)]
    split <;> omega
  have table : blocksFor nInodes 256 = ((nInodes + 255) / 256 : Nat) := by
    rw [blocksFor_eq (by omega)]
    split <;> omega
  have narrow : toInt blocks = blocks := toInt_of_fits (by omega) (by omega)
  have left : blocksLeft blocks nInodes =
      blocks - 1 - ((nInodes + 32767) / 32768 : Nat) - ((nInodes + 255) / 256 : Nat) := by
    rw [blocksLeft, narrow, bitmap, table]
  by_cases room : HasRoom blocks nInodes
  · have enough := room
    rw [HasRoom] at enough
    obtain ⟨k, sizing, low, data⟩ := sizeBitmap_leaves (r := blocksLeft blocks nInodes) (by omega)
    have sized : Sized blocks nInodes k := by
      refine ⟨sizing, ?_, ?_, ?_, data, ?_, ?_, ?_⟩ <;> omega
    have counted : (BitVec.ofNat 64 nInodes).toInt = nInodes := by
      rw [toInt_inodes (by omega), if_pos (by omega)]
    have enough : -1 ≤ (Bytes.word64 (fun _ => 0) offFreeBlocksCount).toInt := by
      simp only [Bytes.word64]
      decide
    have made := mkfs_first now sized (by omega) blank_absent enough (by simp [Bitmap.test, bitmapFrom])
    exact ⟨_, made, by simp [room]⟩
  · refine ⟨none, ?_, by simp [room]⟩
    have short := room
    rw [HasRoom] at short
    have quotient : 4096 * blocks / 4096 = blocks := by omega
    simp only [mkfs, quotient, narrow, bitmap, table]
    rw [if_neg blank_absent, intArith_ok.mpr ⟨by omega, rfl⟩, ok_bind]
    by_cases first : (blocks : Int) - 1 ≤ 0
    · rw [if_pos first]
      rfl
    rw [if_neg first, intArith_ok.mpr ⟨by omega, rfl⟩, ok_bind]
    by_cases second : (blocks : Int) - 1 - ((nInodes + 32767) / 32768 : Nat) ≤ 0
    · rw [if_pos second]
      rfl
    rw [if_neg second, intArith_ok.mpr ⟨by omega, rfl⟩, ok_bind]
    by_cases third :
        (blocks : Int) - 1 - ((nInodes + 32767) / 32768 : Nat) - ((nInodes + 255) / 256 : Nat) ≤ 0
    · rw [if_pos third]
      rfl
    -- one block is left, and the data bitmap takes it
    have one : (blocks : Int) - 1 - ((nInodes + 32767) / 32768 : Nat) -
        ((nInodes + 255) / 256 : Nat) = 1 := by
      omega
    rw [if_neg third, one, sizeBitmap_small (by decide) (by decide), ok_bind]
    rfl

/-- With -z and arguments that it accepts, the formatting tool fails exactly when the image has no room
    for the inodes asked for, a block of the data bitmap and a block of data. -/
theorem mkfs_accepts {args : List GetOpt} {operands : List CString} {opts : MkfsOpts} {disk : Disk}
    {file : CString} {bytes : Bytes} (accepted : parseArgs operands args {} = .ok (some opts))
    (noHelp : .h ∉ args) (zeroed : .z ∈ args) (named : operands.head? = some file)
    (held : disk file = some ⟨bytes, 4096 * blocks⟩) (pos : 0 < blocks) (small : blocks < 2 ^ 31)
    (few : opts.nInodes / 256 + 1 < 2 ^ 31) (allowed : a1fsIsPresent bytes = true → .f ∈ args) :
    ∃ disk', mkfsMain now args operands disk = .ok (if HasRoom blocks opts.nInodes then 0 else 1, disk') := by
  rcases parseArgs_parsed accepted with ⟨help, -⟩ | parsed
  · exact absurd help noHelp
  · have path : opts.imgPath = some file := (parseArgs_path accepted noHelp).trans named
    have off : ¬ opts.help = true := by
      rw [parsed.help]
      decide
    have zero : opts.zero = true := parsed.zero.mpr (.inr zeroed)
    have forced : ¬ (¬ opts.force = true ∧ a1fsIsPresent bytes = true) := by
      rintro ⟨mild, present⟩
      exact mild (parsed.force.mpr (.inr (allowed present)))
    have mapped : mapFile ⟨bytes, 4096 * blocks⟩ 4096 = some bytes := by
      simp only [mapFile]
      rw [if_neg (by omega), if_neg (by omega)]
    obtain ⟨out, made, accepts⟩ := mkfs_room now small parsed.inodes few
    obtain ⟨⟨image, formatted⟩, written, same⟩ := mkfs_writes.of_ok made
    dsimp only at same
    have done : formatted = true ↔ HasRoom blocks opts.nInodes := by
      rw [← accepts, same]
      cases formatted with
      | true => simp
      | false => simp
    refine ⟨disk.put file ⟨image, 4096 * blocks⟩, ?_⟩
    simp only [mkfsMain, accepted, ok_bind, path, held, mapped]
    rw [if_neg off, if_neg forced, if_pos zero, written, ok_bind, if_congr done rfl rfl]
    rfl

theorem mkfs_accepts_blank : ∃ disk',
    mkfsMain ⟨0, 0⟩ [.z, .i sixteen] [pathA] (diskOf pathA blankImage) =
      .ok (if HasRoom 16 16 then 0 else 1, disk') := by
  have parsed : parseArgs [pathA] [.z, .i sixteen] {} = .ok (some ⟨some pathA, 16, false, false, true⟩) := by
    decide +kernel
  have held : diskOf pathA blankImage pathA = some ⟨fun _ => 0, 4096 * 16⟩ := rfl
  have absent : ¬ a1fsIsPresent (fun _ => 0) = true := by decide +kernel
  exact mkfs_accepts parsed (by decide) (by decide) rfl held (by decide) (by decide) (by decide)
    fun present => absurd present absent

end Room

end ExtentFs
