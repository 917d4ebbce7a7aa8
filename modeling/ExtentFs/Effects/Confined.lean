import ExtentFs.Effects.Calls
import ExtentFs.Model.Requests

namespace ExtentFs

open Base Base.Bytes

/-- The fields of an inode that are counted in unsigned types, the slots behind the last one, and the
    index that no call moves. -/
structure A1fsInode.Narrow (inode : A1fsInode) : Prop where
  links : inode.links < 2 ^ 32
  size : inode.size < 2 ^ 64
  numEntries : inode.numEntries < 2 ^ 32
  indirect : inode.lastUsedIndirect = -1 ∨ inode.lastUsedIndirect = 0
  slots : ∀ k, 12 ≤ k → inode.iExtent k = ⟨0, 0, 0⟩

/-- The superblocks agree in all but their counters. -/
abbrev A1fsSuperblock.SameLayout (sb sb' : A1fsSuperblock) : Prop :=
  { sb' with
    sbFreeBlocksCount := sb.sbFreeBlocksCount
    sbFreeInodesCount := sb.sbFreeInodesCount
    sbUsedDirsCount := sb.sbUsedDirsCount } = sb

theorem A1fsSuperblock.SameLayout.swap {sb sb1 sb2 : A1fsSuperblock} (first : sb.SameLayout sb1)
    (second : sb.SameLayout sb2) : sb1.SameLayout sb2 :=
  congrArg (fun sb : A1fsSuperblock => { sb with
    sbFreeBlocksCount := sb1.sbFreeBlocksCount
    sbFreeInodesCount := sb1.sbFreeInodesCount
    sbUsedDirsCount := sb1.sbUsedDirsCount }) (second.trans first.symm)

/-- Nothing is written outside of the parts of the image, and nothing in the superblock but its
    counters; the fields of inodes stay in range. -/
structure FsCtx.Confined (fs fs' : FsCtx) : Prop where
  size : fs'.size = fs.size
  superblock : fs.sb.SameLayout fs'.sb
  inodeLength : fs'.inodeBits.length = fs.inodeBits.length
  blockLength : fs'.blockBits.length = fs.blockBits.length
  inodeTail : ∀ k, fs.inodeBits.length ≤ k → fs'.inodeBits.byte k = fs.inodeBits.byte k
  blockTail : ∀ k, fs.blockBits.length ≤ k → fs'.blockBits.byte k = fs.blockBits.byte k
  data : ∀ a, fs.dataSize ≤ a → fs'.data a = fs.data a
  others : ∀ i : Nat, fs.sb.sbInodesCount ≤ i → fs'.itable i = fs.itable i
  inodes : ∀ i, (fs.itable i).Narrow → (fs'.itable i).Narrow

namespace FsCtx.Confined

variable {fs0 fs : FsCtx} {i : Nat} {inode : A1fsInode}

theorem refl : fs.Confined fs :=
  ⟨rfl, rfl, rfl, rfl, fun _ _ => rfl, fun _ _ => rfl, fun _ _ => rfl, fun _ _ => rfl, fun _ narrow => narrow⟩

theorem inodesCount (before : fs0.Confined fs) : fs.sb.sbInodesCount = fs0.sb.sbInodesCount := by
  have same := congrArg A1fsSuperblock.sbInodesCount before.superblock
  exact same

theorem dataSize (before : fs0.Confined fs) : fs.dataSize = fs0.dataSize := by
  have fields := congrArg A1fsSuperblock.sbFirstDataBlock before.superblock
  have same : fs.sb.sbFirstDataBlock = fs0.sb.sbFirstDataBlock := fields
  rw [FsCtx.dataSize, FsCtx.dataSize, before.size, same]

theorem setInode (before : fs0.Confined fs) (inside : (i : Int) < fs0.sb.sbInodesCount)
    (narrow : (fs.itable i).Narrow → inode.Narrow) : fs0.Confined (fs.setInode i inode) := by
  refine ⟨before.size, before.superblock, before.inodeLength, before.blockLength, before.inodeTail,
    before.blockTail, before.data, fun j outside => ?_, fun j start => ?_⟩
  · rw [FsCtx.setInode_other (by omega)]
    exact before.others j outside
  · have old := before.inodes j start
    by_cases own : j = i
    · subst own
      rw [FsCtx.setInode_self]
      exact narrow old
    · rw [FsCtx.setInode_other own]
      exact old

theorem setData {data : Bytes} (before : fs0.Confined fs)
    (same : ∀ a, fs0.dataSize ≤ a → data a = fs.data a) : fs0.Confined { fs with data := data } :=
  ⟨before.size, before.superblock, before.inodeLength, before.blockLength, before.inodeTail, before.blockTail,
    fun a outside => (same a outside).trans (before.data a outside), before.others, before.inodes⟩

/-- The counters of the superblock are free. -/
theorem setCounters {sb : A1fsSuperblock} (before : fs0.Confined fs) (same : fs.sb.SameLayout sb) :
    fs0.Confined { fs with sb := sb } := by
  refine ⟨before.size, ?_, before.inodeLength, before.blockLength, before.inodeTail, before.blockTail,
    before.data, before.others, before.inodes⟩
  have old := before.superblock
  rw [← same] at old
  exact old

theorem setBlockBits {bits : Bitmap} (before : fs0.Confined fs) (length : bits.length = fs.blockBits.length)
    (tail : ∀ k, fs.blockBits.length ≤ k → bits.byte k = fs.blockBits.byte k) :
    fs0.Confined { fs with blockBits := bits } :=
  ⟨before.size, before.superblock, before.inodeLength, length.trans before.blockLength, before.inodeTail,
    fun k beyond => (tail k (by rw [before.blockLength]; exact beyond)).trans (before.blockTail k beyond),
    before.data, before.others, before.inodes⟩

theorem setInodeBits {bits : Bitmap} (before : fs0.Confined fs) (length : bits.length = fs.inodeBits.length)
    (tail : ∀ k, fs.inodeBits.length ≤ k → bits.byte k = fs.inodeBits.byte k) :
    fs0.Confined { fs with inodeBits := bits } :=
  ⟨before.size, before.superblock, length.trans before.inodeLength, before.blockLength,
    fun k beyond => (tail k (by rw [before.inodeLength]; exact beyond)).trans (before.inodeTail k beyond),
    before.blockTail, before.data, before.others, before.inodes⟩

end FsCtx.Confined

section Bits

variable {sb sb' : A1fsSuperblock} {bitmap bitmap' : Bitmap} {i flipType : Nat} {fs0 fs : FsCtx}

/-- The bytes behind a bitmap stay, and so do the fields of the superblock but its counters. -/
def Flipped (sb : A1fsSuperblock) (bitmap : Bitmap) (out : A1fsSuperblock × Bitmap) : Prop :=
  sb.SameLayout out.1 ∧ out.2.length = bitmap.length ∧ ∀ k, bitmap.length ≤ k → out.2.byte k = bitmap.byte k

theorem Flipped.refl : Flipped sb bitmap (sb, bitmap) := ⟨rfl, rfl, fun _ _ => rfl⟩

theorem Flipped.trans {out : A1fsSuperblock × Bitmap} (first : Flipped sb bitmap (sb', bitmap'))
    (second : Flipped sb' bitmap' out) : Flipped sb bitmap out := by
  obtain ⟨fields, length, tail⟩ := first
  obtain ⟨fields', length', tail'⟩ := second
  dsimp only at fields length tail
  refine ⟨?_, length'.trans length, fun k beyond => ?_⟩
  · rw [← fields, ← fields']
  · exact (tail' k (by omega)).trans (tail k beyond)

theorem flipBit_tail : Yields (flipBit bitmap i) fun out =>
    out.length = bitmap.length ∧ ∀ k, bitmap.length ≤ k → out.byte k = bitmap.byte k := by
  refine .ite (fun inside => .ok ⟨rfl, fun k beyond => if_neg (by omega)⟩) fun _ => .error

theorem setBits_flipped {bmType : BitmapType} {n : Int} :
    Yields (setBits sb bitmap i bmType n flipType) (Flipped sb bitmap) := by
  have flips (l : List Nat) (sb : A1fsSuperblock) (bitmap : Bitmap) :
      Yields (flipDataBits sb bitmap flipType l) (Flipped sb bitmap) := by
    induction l generalizing sb bitmap with
    | nil => exact .ok .refl
    | cons i l ih =>
      rw [flipDataBits]
      refine .bind flipBit_tail fun bits flipped => ?_
      intro out returned
      have first (count : Int) : Flipped sb bitmap ({ sb with sbFreeBlocksCount := count }, bits) :=
        ⟨rfl, flipped⟩
      exact (first _).trans (ih _ _ out returned)
  cases bmType with
  | inode => exact .bind flipBit_tail fun bits flipped => .pure ⟨rfl, flipped⟩
  | data => exact flips _ sb bitmap

theorem FsCtx.Confined.flipBlocks {out : A1fsSuperblock × Bitmap} (before : fs0.Confined fs)
    (flipped : Flipped fs.sb fs.blockBits out) :
    fs0.Confined { fs with sb := out.1, blockBits := out.2 } :=
  (before.setBlockBits flipped.2.1 flipped.2.2).setCounters flipped.1

theorem FsCtx.Confined.flipInode {out : A1fsSuperblock × Bitmap} (before : fs0.Confined fs)
    (flipped : Flipped fs.sb fs.inodeBits out) :
    fs0.Confined { fs with sb := out.1, inodeBits := out.2 } :=
  (before.setInodeBits flipped.2.1 flipped.2.2).setCounters flipped.1

end Bits

section Grow

variable {fs0 fs : FsCtx} {i : Nat} {now : Timespec} {inode : A1fsInode}

/-- The states that a computation may leave behind. -/
abbrev Stays {α : Type} (fs0 : FsCtx) (x : Checked (FsCtx × α)) : Prop :=
  Yields x fun out => fs0.Confined out.1

theorem A1fsInode.Narrow.setExtent {k : Nat} {extent : A1fsExtent} (narrow : inode.Narrow) (slot : k < 12) :
    (inode.setExtent k extent).Narrow := by
  refine ⟨narrow.links, narrow.size, narrow.numEntries, narrow.indirect, fun j beyond => ?_⟩
  rw [A1fsInode.setExtent_other (by omega)]
  exact narrow.slots j beyond

theorem setDbExtent_narrow {k start count : Nat} {new : Bool} :
    Yields (setDbExtent inode k start count new now) fun out => inode.Narrow → out.Narrow := by
  refine .next fun old read => .pure fun narrow => ?_
  obtain ⟨slot, -⟩ := guard_eq_ok.mp read
  have set : (inode.setExtent k (if new then ⟨start, count, 0⟩
    else { old with count := old.count + count })).Narrow := narrow.setExtent slot
  exact ⟨set.links, set.size, set.numEntries, set.indirect, set.slots⟩

theorem dentryAddr_inside {j k addr : Nat} (h : fs.dentryAddr j k = .ok addr) : addr + 256 ≤ fs.dataSize := by
  obtain ⟨-, inside, rfl⟩ := dentryAddr_ok.mp h
  omega

theorem scanDentries_inside {β : Type} {dir : A1fsInode} {body : Nat → Checked (Option β)} {b : β}
    (h : fs.scanDentries dir body = .ok (some b)) :
    ∃ addr, addr + 256 ≤ fs.dataSize ∧ body addr = .ok (some b) := by
  obtain ⟨slot, -, h⟩ := findSomeM?_some h
  obtain ⟨extent, -, h⟩ := bind_eq_ok.mp h
  obtain ⟨block, -, h⟩ := findSomeM?_some h
  obtain ⟨k, -, h⟩ := findSomeM?_some h
  obtain ⟨addr, read, h⟩ := bind_eq_ok.mp h
  exact ⟨addr, dentryAddr_inside read, h⟩

theorem findIno_inside {dir : A1fsInode} {ino : Int} {addr : Nat} (h : fs.findIno dir ino = .ok (some addr)) :
    addr + 256 ≤ fs.dataSize := by
  obtain ⟨found, inside, test⟩ := scanDentries_inside h
  have same := pure_eq_ok.mp test
  split at same
  · cases same
    exact inside
  · cases same

theorem freeDentry_stays {start k : Nat} (before : fs0.Confined fs) :
    Yields (freeDentry fs start k) fs0.Confined := by
  refine .next fun addr read => .pure (before.setData fun a outside => ?_)
  have inside := dentryAddr_inside read
  rw [before.dataSize] at inside
  exact set32_outside _ (by omega)

theorem setDirbExtent_stays {k start count : Nat} {new : Bool} (before : fs0.Confined fs)
    (inside : (i : Int) < fs0.sb.sbInodesCount) :
    Yields (setDirbExtent fs i k start count new now) fs0.Confined := by
  unfold setDirbExtent
  refine .bind setDbExtent_narrow fun inode narrow => ?_
  exact .foldlM (fun fs1 k kept => freeDentry_stays kept) (before.setInode inside narrow)

theorem placeExtent_stays {k start count : Nat} {new : Bool} {dbType : BlockType}
    (before : fs0.Confined fs) (inside : (i : Int) < fs0.sb.sbInodesCount) :
    Stays fs0 (placeExtent fs i k start count new dbType now) := by
  unfold placeExtent
  cases dbType with
  | data => exact .bind setDbExtent_narrow fun inode narrow => .pure (before.setInode inside narrow)
  | directory => exact .bind (setDirbExtent_stays before inside) fun fs1 kept => .pure kept

theorem setLastUsedExtent_confined {index : Int} (before : fs0.Confined fs)
    (inside : (i : Int) < fs0.sb.sbInodesCount) : fs0.Confined (setLastUsedExtent fs i index) :=
  before.setInode inside fun narrow =>
    ⟨narrow.links, narrow.size, narrow.numEntries, narrow.indirect, narrow.slots⟩

theorem allocateDataBlks_stays {data count : Nat} {dbType : BlockType} (before : fs0.Confined fs)
    (inside : (i : Int) < fs0.sb.sbInodesCount) :
    Stays fs0 (allocateDataBlks fs i data count dbType now) := by
  unfold allocateDataBlks
  refine .ite (fun _ => placeExtent_stays (setLastUsedExtent_confined before inside) inside) fun _ => ?_
  refine .next fun last _ => .ite (fun _ => placeExtent_stays before inside) fun _ => ?_
  exact placeExtent_stays (setLastUsedExtent_confined before inside) inside

theorem makeDentryBlock_stays (before : fs0.Confined fs) (inside : (i : Int) < fs0.sb.sbInodesCount) :
    Stays fs0 (makeDentryBlock fs i now) := by
  unfold makeDentryBlock
  refine .next fun available _ => .ite (fun _ => .pure before) fun _ => ?_
  refine .bind (allocateDataBlks_stays before inside) fun out kept => ?_
  exact .bind setBits_flipped fun bits flipped => .pure (kept.flipBlocks flipped)

theorem writeDentry_stays {ino addr : Nat} {name : List Byte} (before : fs0.Confined fs)
    (inside : (i : Int) < fs0.sb.sbInodesCount) (entry : addr + 256 ≤ fs0.dataSize) :
    Yields (writeDentry fs i ino name addr now) fs0.Confined := by
  unfold writeDentry
  refine .next fun fs1 stored => .pure ?_
  obtain ⟨⟨-, room⟩, same⟩ := guard_eq_ok.mp stored
  cases same
  rw [before.dataSize] at room
  have named : fs0.Confined { fs with data := fs.data.store (addr + 4 : Int).toNat (name ++ [0#8]) } :=
    before.setData fun a outside => store_outside (by omega)
  have numbered : fs0.Confined { fs with
      data := (fs.data.store (addr + 4 : Int).toNat (name ++ [0#8])).set32 addr (BitVec.ofNat 32 ino) } :=
    named.setData fun a outside => set32_outside _ (by omega)
  refine (numbered.setInode inside fun narrow => ?_).setCounters rfl
  have links : 2 < 2 ^ 32 := by decide
  exact ⟨links, Nat.mod_lt _ (by decide), Nat.mod_lt _ (by decide), narrow.indirect, narrow.slots⟩

theorem addDentry_stays {ino : Nat} {name : List Byte} (before : fs0.Confined fs)
    (inside : (i : Int) < fs0.sb.sbInodesCount) : Stays fs0 (addDentry fs i ino name now) := by
  have block (needed : Prop) [Decidable needed] (fs1 : FsCtx) (kept : fs0.Confined fs1) : Stays fs0
      (if needed then makeDentryBlock fs1 i now else pure (fs1, 0)) :=
    .ite (fun _ => makeDentryBlock_stays kept inside) fun _ => .pure kept
  unfold addDentry
  refine .jump (block _ fs before) ?_
  rintro ⟨fs1, made⟩ kept
  refine .ite (fun _ => .pure kept) fun _ => .next fun free _ => .jump (block _ fs1 kept) ?_
  rintro ⟨fs2, made⟩ kept
  refine .ite (fun _ => .pure kept) fun _ => .next fun found search => ?_
  cases found with
  | none => exact .pure kept
  | some addr =>
    have entry := findIno_inside search
    rw [kept.dataSize] at entry
    exact .bind (writeDentry_stays kept inside entry) fun fs3 kept => .pure kept

theorem createRepeatedly_stays {make : FsCtx → Checked (FsCtx × Int)} {n total : Int} {fuel : Nat}
    (each : ∀ fs, fs0.Confined fs → Stays fs0 (make fs)) (before : fs0.Confined fs) :
    Stays fs0 (createRepeatedly make n fuel fs total) := by
  induction fuel generalizing fs total with
  | zero => exact .error
  | succ fuel ih =>
    rw [createRepeatedly]
    refine .bind (each fs before) ?_
    rintro ⟨fs1, created⟩ kept
    exact .ite (fun _ => .ite (fun _ => ih kept) fun _ => .pure kept) fun _ => .pure kept

theorem makeDataBlocks_stays {fuel : Nat} {n : Int} (before : fs0.Confined fs)
    (inside : (i : Int) < fs0.sb.sbInodesCount) : Stays fs0 (makeDataBlocks i now fuel fs n) := by
  induction fuel generalizing fs n with
  | zero => exact .error
  | succ fuel ih =>
    rw [makeDataBlocks]
    refine .next fun available _ => .ite (fun _ => ?_) fun _ => ?_
    · refine .bind (allocateDataBlks_stays before inside) fun out kept => ?_
      exact .bind setBits_flipped fun bits flipped => .pure (kept.flipBlocks flipped)
    · exact createRepeatedly_stays (fun fs kept => ih kept) before

end Grow

section Resize

variable {fs0 fs : FsCtx} {i : Nat} {env : Env} {now : Timespec} {fuel : Nat}

theorem clearBytes_stays {addr length : Int} (before : fs0.Confined fs) :
    Yields (fs.clearBytes addr length) fs0.Confined := by
  intro fs' cleared
  obtain ⟨⟨low, some, room⟩, rfl⟩ := clearBytes_ok.mp cleared
  rw [before.dataSize] at room
  exact before.setData fun a outside => fill_outside (by omega)

theorem storeBytes_stays {addr : Int} {bytes : List Byte} (before : fs0.Confined fs) :
    Yields (fs.storeBytes addr bytes) fs0.Confined := by
  intro fs' stored
  obtain ⟨⟨low, room⟩, rfl⟩ := storeBytes_ok.mp stored
  rw [before.dataSize] at room
  exact before.setData fun a outside => store_outside (by omega)

theorem resize_stays {k : Nat} {bytes : Int} (before : fs0.Confined fs)
    (inside : (i : Int) < fs0.sb.sbInodesCount) (slot : k < 12) :
    fs0.Confined (fs.setInode i ((fs.itable i).resize k bytes)) :=
  before.setInode inside fun narrow => narrow.setExtent slot

theorem zeroOutBlocks_stays {k j length : Nat} {leftover left : Int} (before : fs0.Confined fs)
    (inside : (i : Int) < fs0.sb.sbInodesCount) (slot : k < 12) :
    Stays fs0 (zeroOutBlocks i k leftover length fs j left) := by
  induction length generalizing fs j left with
  | zero => exact .ok before
  | succ length ih =>
    rw [zeroOutBlocks]
    refine .next fun addr _ => .ite (fun _ => ?_) fun _ => ?_
    · exact .bind (clearBytes_stays before) fun fs1 kept => .pure (resize_stays kept inside slot)
    · exact .bind (clearBytes_stays before) fun fs1 kept => ih (resize_stays kept inside slot)

theorem zeroExtents_stays {l : List Nat} {first start : Nat} {leftover left : Int}
    (before : fs0.Confined fs) (inside : (i : Int) < fs0.sb.sbInodesCount) :
    Yields (zeroExtents i leftover first start l fs left) fs0.Confined := by
  induction l generalizing fs left with
  | nil => exact .ok before
  | cons k l ih =>
    rw [zeroExtents]
    refine .ite (fun _ => .ok before) fun _ => .next fun extent read => ?_
    obtain ⟨slot, -⟩ := guard_eq_ok.mp read
    refine .bind (zeroOutBlocks_stays before inside slot) ?_
    rintro ⟨fs1, left1⟩ kept
    exact ih (resize_stays kept inside slot)

theorem touch_stays (before : fs0.Confined fs) (inside : (i : Int) < fs0.sb.sbInodesCount) :
    fs0.Confined (touch fs i now) :=
  before.setInode inside fun narrow =>
    ⟨narrow.links, narrow.size, narrow.numEntries, narrow.indirect, narrow.slots⟩

theorem truncateHelper_stays {size : Int} (before : fs0.Confined fs)
    (inside : (i : Int) < fs0.sb.sbInodesCount) : Stays fs0 (truncateHelper fuel fs i size now) := by
  unfold truncateHelper
  refine .next fun request _ => .bind (makeDataBlocks_stays before inside) ?_
  rintro ⟨fs1, made⟩ kept
  refine .ite (fun _ => .pure kept) fun _ => .next fun start _ => ?_
  refine .bind (zeroExtents_stays (touch_stays kept inside) inside) fun fs2 kept => ?_
  exact .pure (touch_stays kept inside)

theorem setSize_stays {size : Int} {inode : A1fsInode} (before : fs0.Confined fs)
    (inside : (i : Int) < fs0.sb.sbInodesCount) (narrow : (fs.itable i).Narrow → inode.Narrow) :
    fs0.Confined (fs.setInode i { inode with size := toUlong size }) := by
  refine before.setInode inside fun old => ?_
  have new := narrow old
  have bound : toUlong size < 2 ^ 64 := by
    rw [toUlong]
    omega
  exact ⟨new.links, bound, new.numEntries, new.indirect, new.slots⟩

theorem grow_stays {bytes : Int} (before : fs0.Confined fs) (inside : (i : Int) < fs0.sb.sbInodesCount) :
    fs0.Confined (grow fs i bytes) := setSize_stays before inside id

theorem extendFile_stays {size : Int} (before : fs0.Confined fs)
    (inside : (i : Int) < fs0.sb.sbInodesCount) : Stays fs0 (extendFile env fuel fs i size) := by
  unfold extendFile
  refine .ite (fun _ => .bind (truncateHelper_stays before inside) ?_) fun _ => .ite (fun _ => ?_) fun _ =>
    .pure before
  · rintro ⟨fs1, helped⟩ kept
    exact .ite (fun _ => .pure kept) fun _ => .pure (grow_stays kept inside)
  · refine .next fun last _ => .next fun addr _ => .bind (clearBytes_stays before) fun fs1 kept => ?_
    refine .next fun remaining _ => .jump
      (.ite (fun _ => truncateHelper_stays kept inside) fun _ => .pure kept) ?_
    rintro ⟨fs2, helped⟩ kept
    exact .ite (fun _ => .pure kept) fun _ => .pure (grow_stays kept inside)

theorem releaseBlocks_flipped {sb : A1fsSuperblock} {bits : Bitmap} {l : List Nat} {n : Int} :
    Yields (releaseBlocks sb bits l n) fun out => Flipped sb bits (out.1, out.2.1) := by
  induction l generalizing sb bits n with
  | nil => exact .ok .refl
  | cons j l ih =>
    rw [releaseBlocks]
    refine .ite (fun _ => .ok .refl) fun _ => .bind setBits_flipped fun released flipped => ?_
    intro out returned
    exact flipped.trans (ih out returned)

theorem releaseExtents_flipped {inode : A1fsInode} {sb : A1fsSuperblock} {bits : Bitmap} {l : List Nat}
    {n : Int} : Yields (releaseExtents inode sb bits l n) (Flipped sb bits) := by
  induction l generalizing sb bits n with
  | nil => exact .ok .refl
  | cons k l ih =>
    rw [releaseExtents]
    refine .ite (fun _ => .ok .refl) fun _ => .next fun extent _ => ?_
    refine .bind releaseBlocks_flipped fun released flipped => ?_
    intro out returned
    exact flipped.trans (ih out returned)

theorem shrinkFile_stays {size : Int} (before : fs0.Confined fs)
    (inside : (i : Int) < fs0.sb.sbInodesCount) : Stays fs0 (shrinkFile fs i size) := by
  unfold shrinkFile
  refine .next fun n _ => .bind releaseExtents_flipped fun released flipped => .pure ?_
  refine (setSize_stays before inside fun narrow => ?_).flipBlocks flipped
  split
  · exact ⟨narrow.links, narrow.size, narrow.numEntries, .inl rfl, narrow.slots⟩
  · exact narrow

theorem inodeAt_stays {α : Type} {n : Int} {f : A1fsInode → Checked (FsCtx × α)} (before : fs0.Confined fs)
    (rest : ∀ i : Nat, n = i → (i : Int) < fs0.sb.sbInodesCount → Stays fs0 (f (fs.itable i))) :
    Stays fs0 (fs.inodeAt n >>= f) := by
  refine .next fun inode read => ?_
  obtain ⟨⟨low, inside⟩, rfl⟩ := inodeAt_ok.mp read
  rw [before.inodesCount] at inside
  exact rest n.toNat (by omega) (by omega)

theorem a1fsTruncate_stays {path : CString} {size : Int} (before : fs0.Confined fs) :
    Stays fs0 (a1fsTruncate env fuel fs path size) := by
  unfold a1fsTruncate
  refine .next fun n _ => inodeAt_stays before ?_
  rintro i rfl inside
  refine .ite (fun _ => .pure before) fun _ => .ite (fun _ => .bind (truncateHelper_stays before inside) ?_)
    fun _ => .ite (fun _ => extendFile_stays before inside) fun _ => shrinkFile_stays before inside
  rintro ⟨fs1, helped⟩ kept
  exact .ite (fun _ => .pure kept) fun _ => .pure (setSize_stays kept inside id)

theorem copyExtents_stays {inode : A1fsInode} {buf : List Byte} {slots k : Nat}
    {offset left written : Int} (before : fs0.Confined fs) :
    Yields (copyExtents inode buf slots fs k offset left written) fs0.Confined := by
  induction slots generalizing fs k offset left written with
  | zero => exact .ite (fun _ => .error) fun _ => .ok before
  | succ slots ih =>
    rw [copyExtents]
    refine .ite (fun _ => .next fun extent _ => .next fun bytes _ => ?_) fun _ => .ok before
    refine .ite (fun _ => .ite (fun _ => .error) fun _ => ?_) fun _ => storeBytes_stays before
    exact .bind (storeBytes_stays before) fun fs1 kept => ih kept

theorem a1fsWrite_stays {path : CString} {buf : List Byte} {offset : Nat} (before : fs0.Confined fs) :
    Stays fs0 (a1fsWrite env fuel fs path buf offset) := by
  unfold a1fsWrite
  refine .next fun n _ => .ite (fun _ => .pure before) fun _ => inodeAt_stays before fun i _ _ => ?_
  refine .jump (.ite (fun _ => a1fsTruncate_stays before) fun _ => .pure before) ?_
  rintro ⟨fs1, truncated⟩ kept
  refine .ite (fun _ => .pure kept) fun _ => .next fun found _ => .ite (fun _ => .pure kept) fun _ => ?_
  exact .bind (copyExtents_stays kept) fun fs2 kept => .pure kept

end Resize

section Entries

variable {fs0 fs : FsCtx} {env : Env} {path : CString}

theorem newEntry_confined {mode : BitVec 32} {noParent : Int} (before : fs0.Confined fs) :
    Stays fs0 (newEntry env fs path mode noParent) := by
  unfold newEntry
  refine .next fun index search => .ite (fun _ => .pure before) fun found => ?_
  refine .bind setBits_flipped fun marked flipped => ?_
  have taken := before.flipInode flipped
  have index_inside : ((index.toNat : Nat) : Int) < fs0.sb.sbInodesCount := by
    rcases getAvailableBit_inode search with none | ⟨j, rfl, inside, -, -⟩
    · omega
    · rw [before.inodesCount] at inside
      exact inside
  have born (narrow : (fs.itable index.toNat).Narrow) :
      (createInode (fs.itable index.toNat) mode env.now).Narrow :=
    have zero : 0 < 2 ^ 32 := by decide
    have empty : 0 < 2 ^ 64 := by decide
    ⟨zero, empty, zero, .inl rfl, narrow.slots⟩
  have created := taken.setInode index_inside born
  refine .next fun parent _ => .ite (fun _ => .pure created) fun _ => inodeAt_stays created ?_
  rintro p rfl inside
  refine .bind (addDentry_stays created inside) ?_
  rintro ⟨fs1, added⟩ kept
  exact .ite (fun _ => .pure kept) fun _ => .pure kept

theorem removeEntry_stays {ino : Nat} {dirs : Int} (before : fs0.Confined fs)
    (inside : (ino : Int) < fs0.sb.sbInodesCount) : Stays fs0 (removeEntry env fs path ino dirs) := by
  have reset : fs0.Confined (fs.setInode ino (resetInode (fs.itable ino) env.now)) :=
    before.setInode inside fun narrow =>
      have zero : 0 < 2 ^ 32 := by decide
      have empty : 0 < 2 ^ 64 := by decide
      ⟨zero, empty, zero, .inl rfl, narrow.slots⟩
  unfold removeEntry
  refine .next fun used _ => .ite (fun _ => ?_) fun _ => .pure reset
  refine .bind setBits_flipped fun marked flipped => ?_
  have dropped := reset.flipInode flipped
  refine .next fun parent _ => .ite (fun _ => .pure dropped) fun _ => inodeAt_stays dropped ?_
  rintro p rfl inside
  refine .next fun found search => ?_
  cases found with
  | none => exact .pure dropped
  | some addr =>
    have entry := findIno_inside search
    rw [dropped.dataSize] at entry
    have cleared (fs : FsCtx) (kept : fs0.Confined fs) : fs0.Confined { fs with
        data := (fs.data.set32 addr (-1#32)).set8 (addr + 4) 0#8 } := by
      refine kept.setData fun a outside => ?_
      rw [set8_of_ne _ (by omega), set32_outside _ (by omega)]
    refine .pure (((cleared _ dropped).setInode inside fun narrow => ?_).setCounters rfl)
    exact ⟨Nat.mod_lt _ (by decide), narrow.size, Nat.mod_lt _ (by decide), narrow.indirect, narrow.slots⟩

theorem a1fsRmdir_stays (before : fs0.Confined fs) : Stays fs0 (a1fsRmdir env fs path) := by
  unfold a1fsRmdir
  refine .next fun n _ => inodeAt_stays before ?_
  rintro ino rfl inside
  exact .ite (fun _ => .pure before) fun _ => removeEntry_stays before inside

theorem freeExtents_flipped {inode : A1fsInode} {l : List Nat} {sb : A1fsSuperblock} {bits : Bitmap} :
    Yields (freeExtents inode l sb bits) fun out => Flipped sb bits (out.1, out.2.1) := by
  induction l generalizing sb bits with
  | nil => exact .ok .refl
  | cons k l ih =>
    rw [freeExtents]
    refine .next fun extent _ => .next fun used _ => .ite (fun _ => ?_) fun _ => .pure .refl
    refine .bind setBits_flipped fun freed flipped => ?_
    intro out returned
    exact flipped.trans (ih out returned)

theorem a1fsUnlink_stays (before : fs0.Confined fs) : Stays fs0 (a1fsUnlink env fs path) := by
  unfold a1fsUnlink
  refine .next fun n _ => inodeAt_stays before ?_
  rintro ino rfl inside
  refine .jump (.ite (fun _ => freeExtents_flipped) fun _ => .pure .refl) ?_
  rintro ⟨sb, bits, freed⟩ flipped
  have released := before.flipBlocks flipped
  exact .ite (fun _ => removeEntry_stays released inside) fun _ => .pure released

theorem exec_stays {call : Call} {fuel : Nat} (before : fs0.Confined fs) :
    Stays fs0 (call.exec env fuel fs) := by
  cases call with
  | create path mode => exact .ite (fun _ => newEntry_confined before) fun _ => .error
  | mkdir path mode => exact newEntry_confined before
  | unlink path => exact a1fsUnlink_stays before
  | rmdir path => exact a1fsRmdir_stays before
  | truncate path size => exact a1fsTruncate_stays before
  | write path buf offset => exact a1fsWrite_stays before

theorem a1fsUtimens_stays {times : Timespec × Timespec} (before : fs0.Confined fs) :
    Stays fs0 (a1fsUtimens env fs path times) := by
  unfold a1fsUtimens
  refine .next fun n _ => .ite (fun _ => .pure before) fun _ => inodeAt_stays before ?_
  rintro i rfl inside
  exact .pure (before.setInode inside fun narrow =>
    ⟨narrow.links, narrow.size, narrow.numEntries, narrow.indirect, narrow.slots⟩)

/-- The bytes of the image outside of its parts, and the layout, survive every request. -/
theorem serve_stays {request : Request} {fuel : Nat} (before : fs0.Confined fs) :
    Stays fs0 (request.serve env fuel fs) := by
  cases request with
  | statfs path => exact .pure before
  | getattr path | readdir path | read path size offset => exact .next fun answer _ => .pure before
  | utimens path times => exact .bind (a1fsUtimens_stays before) fun out kept => .pure kept
  | change call => exact .bind (exec_stays before) fun out kept => .pure kept

end Entries

end ExtentFs
