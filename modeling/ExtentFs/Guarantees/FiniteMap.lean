import ExtentFs.Effects.Lookups

namespace ExtentFs

open Base Base.Bytes

/-- The last loops of `a1fs_rmdir` and `a1fs_unlink`: find the entry by its number and free it. -/
def removalScan (env : Env) (fs : FsCtx) (parent : Int) (inoToRm : Nat) (dirsRemoved : Int) :
    Checked (FsCtx × Int) := do
  let dir ← fs.inodeAt parent
  match ← fs.findIno dir inoToRm with
  | some addr => return (clearDentry fs parent.toNat addr dirsRemoved env.now, 0)
  | none => return (fs, -env.errno)

namespace FsCtx

/-- The slots of a directory are a map from names to numbers and back. -/
structure OneToOne (fs : FsCtx) (d : Nat) : Prop extends fs.Slots d where
  numbers : ∀ a ∈ (fs.itable d).entries, ∀ a' ∈ (fs.itable d).entries, fs.inUse a = true →
    fs.inUse a' = true → fs.dentryIno a = fs.dentryIno a' → a = a'

/-- One name is new in directory `d`, and no block, bit or counter of free ones is different. -/
structure Inserted (fs fs' : FsCtx) (d : Nat) (name : List Byte) (i : Nat) : Prop where
  extents : ∀ j, (fs'.itable j).lastUsedExtent = (fs.itable j).lastUsedExtent ∧
    (fs'.itable j).iExtent = (fs.itable j).iExtent
  bitmaps : fs'.blockBits = fs.blockBits ∧ fs'.inodeBits = fs.inodeBits
  counts : fs'.sb.sbFreeBlocksCount = fs.sb.sbFreeBlocksCount ∧
    fs'.sb.sbFreeInodesCount = fs.sb.sbFreeInodesCount
  found : inodeLookup fs' d name = .ok i
  others : ∀ other, 0#8 ∉ other → other ≠ [] → other ≠ name →
    inodeLookup fs' d other = inodeLookup fs d other

/-- The name that has been added to directory `d` of `fs` is gone again. -/
structure Erased (fs added fs' : FsCtx) (d : Nat) (name : List Byte) : Prop where
  gone : inodeLookup fs' d name = .ok (-1)
  others : ∀ other, 0#8 ∉ other → other ≠ [] → other ≠ name →
    inodeLookup fs' d other = inodeLookup added d other
  numEntries : (fs'.itable d).numEntries = (fs.itable d).numEntries
  slots : fs'.OneToOne d

/-- An entry is added under its name and removed by its number, as from a finite map. -/
def IsFiniteMap (fs : FsCtx) (d : Nat) (name : List Byte) (i : Nat) (now : Timespec) (env : Env)
    (dirsRemoved : Int) : Prop :=
  ∃ added fs', addDentry fs d i name now = .ok (added, 0) ∧ fs.Inserted added d name i ∧
    removalScan env added d i dirsRemoved = .ok (fs', 0) ∧ fs.Erased added fs' d name

end FsCtx

theorem removeEntry_scan {env : Env} {fs : FsCtx} {path : CString} {ino : Nat} {dirs : Int} :
    removeEntry env fs path ino dirs = (do
      let fs := fs.setInode ino (resetInode (fs.itable ino) env.now)
      if ← checkBitUsage fs.inodeBits ino then
        let (sb, bits) ← setBits fs.sb fs.inodeBits ino .inode (-1) 0
        let fs := { fs with sb := sb, inodeBits := bits }
        let parent ← getInodeNum fs path 1
        if parent < 0 then return (fs, -env.errno) else removalScan env fs parent ino dirs
      else return (fs, -env.errno)) := rfl

section Slots

variable {fs fs' : FsCtx} {d addr i : Nat} {name : List Byte} {dir : A1fsInode}

theorem scanDentries_visits {β : Type} {body : Nat → Checked (Option β)}
    (h : fs.scanDentries dir body = .ok none) : ∀ b ∈ dir.blocks, 4096 * b < 2 ^ 31 := by
  intro b member
  obtain ⟨k, slot, block⟩ := A1fsInode.mem_blocks.mp member
  have scan := findSomeM?_none h k slot
  rw [bind_eq_ok] at scan
  obtain ⟨extent, read, scan⟩ := scan
  obtain ⟨-, same⟩ := guard_eq_ok.mp read
  cases same
  have entries := findSomeM?_none scan b block
  have first := findSomeM?_none entries 0 (by decide)
  rw [bind_eq_ok] at first
  obtain ⟨addr, place, -⟩ := first
  exact (dentryAddr_ok.mp place).1

theorem FsCtx.Slots.visits (slots : fs.Slots d) (noNul : 0#8 ∉ name) (some : name ≠ [])
    (h : inodeLookup fs d name = .ok (-1)) : ∀ b ∈ (fs.itable d).blocks, 4096 * b < 2 ^ 31 := by
  obtain ⟨-, found, scan, number⟩ := inodeLookup_scan.mp h
  cases found with
  | none => exact scanDentries_visits scan
  | some r =>
    cases number
    exfalso
    obtain ⟨a, member, test⟩ := findSomeM?_some (scanDentries_ok scan)
    rw [bind_eq_ok] at test
    obtain ⟨same, compare, test⟩ := test
    obtain rfl := strcmp_ok compare
    split at test
    · rename_i read
      obtain ⟨used, -⟩ := (slots.nameIs_iff member noNul some).mp read
      rw [pure_eq_ok, Option.some.injEq] at test
      exact inUse_iff.mp used test
    · cases test

theorem FsCtx.OneToOne.enters (slots : fs.OneToOne d) (enters : fs.Enters fs' d addr i name)
    (absent : ∀ a ∈ (fs.itable d).entries, fs.dentryIno a ≠ i) : fs'.OneToOne d := by
  refine ⟨slots.toSlots.enters enters, ?_⟩
  rw [enters.entries]
  have kept {a : Nat} (member : a ∈ (fs.itable d).entries) (differ : a ≠ addr)
      (used : fs'.inUse a = true) : fs.inUse a = true ∧ fs'.dentryIno a = fs.dentryIno a := by
    have bytes := enters.bytes a member differ
    rw [bytes.inUse] at used
    exact ⟨used, bytes.dentryIno⟩
  intro a member a' member' used used' same
  by_cases first : a = addr
  · by_cases second : a' = addr
    · rw [first, second]
    · obtain ⟨-, number⟩ := kept member' second used'
      rw [first, enters.number, number] at same
      exact absurd same.symm (absent a' member')
  · obtain ⟨old, number⟩ := kept member first used
    by_cases second : a' = addr
    · rw [second, enters.number, number] at same
      exact absurd same (absent a member)
    · obtain ⟨old', number'⟩ := kept member' second used'
      rw [number, number'] at same
      exact slots.numbers a member a' member' old old' same

theorem FsCtx.OneToOne.clears (slots : fs.OneToOne d) (clears : fs.Clears fs' d addr i name) :
    fs'.OneToOne d := by
  refine ⟨slots.toSlots.clears clears, ?_⟩
  rw [clears.entries]
  intro a member a' member' used used' same
  obtain ⟨bytes, old⟩ := clears.old_of_used member used
  obtain ⟨bytes', old'⟩ := clears.old_of_used member' used'
  rw [bytes.dentryIno, bytes'.dentryIno] at same
  exact slots.numbers a member a' member' old old' same

end Slots

section Map

variable {fs fs' : FsCtx} {d i addr : Nat} {name other : List Byte} {now : Timespec} {env : Env}
  {dirs : Int}

variable (i now) in
theorem addDentry_free (search : fs.findIno (fs.itable d) (-1) = .ok (some addr))
    (inside : addr + 256 ≤ fs.dataSize) (short : name.length < a1fsNameMax) :
    ∃ added, writeDentry fs d i name addr now = .ok added ∧
      addDentry fs d i name now = .ok (added, 0) := by
  have used : (fs.itable d).lastUsedExtent ≠ -1 := by
    intro unused
    have member := List.mem_of_find?_eq_some (findIno_ok search).symm
    rw [A1fsInode.entries, A1fsInode.blocks_of_empty unused] at member
    cases member
  have store : ∃ stored, fs.storeBytes (addr + 4) (name ++ [0#8]) = .ok stored := by
    rw [a1fsNameMax] at short
    refine ⟨_, storeBytes_ok.mpr ⟨?_, rfl⟩⟩
    rw [List.length_append, List.length_singleton]
    omega
  obtain ⟨stored, store⟩ := store
  have write : ∃ added, writeDentry fs d i name addr now = .ok added := by
    rw [writeDentry, store]
    exact ⟨_, rfl⟩
  obtain ⟨added, write⟩ := write
  refine ⟨added, write, ?_⟩
  rw [addDentry, if_neg used, pure_bind]
  dsimp only
  rw [if_neg (by omega), search, ok_bind, if_neg (by simp), pure_bind]
  dsimp only
  rw [if_neg (by omega), search, ok_bind]
  dsimp only
  rw [write]
  rfl

theorem FsCtx.Readable.of_blocks (last : (fs.itable d).lastUsedExtent < 12)
    (inside : ∀ b ∈ (fs.itable d).blocks, b < fs.dataBlocks)
    (near : ∀ b ∈ (fs.itable d).blocks, 4096 * b < 2 ^ 31) : fs.Readable (fs.itable d) := by
  refine ⟨last, fun b member => ⟨near b member, ?_⟩⟩
  have within := inside b member
  rw [FsCtx.dataBlocks] at within
  omega

theorem FsCtx.Readable.same (readable : fs.Readable (fs.itable d))
    (extents : (fs.itable d).SameExtents (fs'.itable d)) (size : fs'.dataSize = fs.dataSize) :
    fs'.Readable (fs'.itable d) := by
  have last := extents.lastUsedExtent
  refine ⟨by have := readable.slots; omega, ?_⟩
  rw [extents.blocks, size]
  exact readable.inside

theorem FsCtx.ChangesEntry.lookup (changes : fs.ChangesEntry fs' d addr) (slots : fs.Slots d)
    (slots' : fs'.Slots d) (extents : (fs.itable d).SameExtents (fs'.itable d))
    (size : fs'.dataSize = fs.dataSize) (count : fs'.sb.sbInodesCount = fs.sb.sbInodesCount)
    (range : (d : Int) < fs.sb.sbInodesCount)
    (readable : fs.Readable (fs.itable d)) (noNul : 0#8 ∉ other) (some : other ≠ [])
    (before : ¬ (fs.inUse addr = true ∧ fs.Named addr other))
    (after : ¬ (fs'.inUse addr = true ∧ fs'.Named addr other)) :
    inodeLookup fs' d other = inodeLookup fs d other := by
  have compares (a : Nat) (member : a ∈ (fs.itable d).entries) :
      fs.strcmp (a + 4) other = .ok (nameIs fs.data (a + 4) other) :=
    slots.strcmp member (readable.entry member) noNul
  have found := inodeLookup_compares range readable compares
  rw [found]
  apply inodeLookup_keeps slots slots' extents size count (fun a member => readable.entry member)
    noNul some (fun a member => ?_) found
  by_cases same : a = addr
  · rw [same]
    exact .inr ⟨before, after⟩
  · exact .inl (changes.bytes a member same)

variable (now) in
theorem addDentry_inserts (range : (d : Int) < fs.sb.sbInodesCount)
    (readable : fs.Readable (fs.itable d)) (nodup : (fs.itable d).entries.Nodup)
    (slots : fs.OneToOne d) (room : ∃ a ∈ (fs.itable d).entries, fs.inUse a = false)
    (proper : 0#8 ∉ name ∧ name ≠ [] ∧ name.length < a1fsNameMax)
    (absent : ∀ a ∈ (fs.itable d).entries, fs.inUse a = true → ¬ fs.Named a name)
    (small : i < 2 ^ 31) (new : ∀ a ∈ (fs.itable d).entries, fs.dentryIno a ≠ i) :
    ∃ added addr, addDentry fs d i name now = .ok (added, 0) ∧ fs.Inserted added d name i ∧
      fs.Enters added d addr i name ∧ fs.Touches added d ∧ added.OneToOne d ∧
      (added.itable d).numEntries = ((fs.itable d).numEntries + 1) % 2 ^ 32 := by
  obtain ⟨addr, search⟩ : ∃ addr, fs.findIno (fs.itable d) (-1) = .ok (some addr) := by
    rw [findIno_eq readable]
    obtain ⟨a, member, unused⟩ := room
    rw [← Bool.not_eq_true, inUse_iff, not_not] at unused
    have free : ((fs.itable d).entries.find? fun a => fs.dentryIno a = -1).isSome := by
      rw [List.find?_isSome]
      exact ⟨a, member, by simpa using unused⟩
    obtain ⟨addr, found⟩ := Option.isSome_iff_exists.mp free
    exact ⟨addr, by rw [found]⟩
  have member := List.mem_of_find?_eq_some (findIno_ok search).symm
  obtain ⟨added, write, add⟩ := addDentry_free i now search (readable.entry member) proper.2.2
  have enters := writeDentry_enters nodup search write proper small absent
  have touches := writeDentry_touches write
  have slots' := slots.enters enters new
  obtain ⟨-, result⟩ := writeDentry_ok write
  have count : added.sb.sbInodesCount = fs.sb.sbInodesCount := by rw [result]
  have size : added.dataSize = fs.dataSize := by rw [result]; rfl
  refine ⟨added, addr, add, ⟨fun j => ?_, ⟨touches.blockBits, touches.inodeBits⟩, ?_, ?_, ?_⟩, enters, touches,
    slots', ?_⟩
  · rw [result]
    by_cases same : j = d
    · rw [same]
      dsimp only
      rw [FsCtx.setInode_self]
      exact ⟨rfl, rfl⟩
    · dsimp only
      rw [FsCtx.setInode_other same]
      exact ⟨rfl, rfl⟩
  · rw [result]
    exact ⟨rfl, rfl⟩
  · have entry : added.Entry d name i := (enters.entry slots.listed).mpr (.inr ⟨rfl, rfl⟩)
    rw [inodeLookup_returns (by omega) (readable.same touches.inode size) proper.2.2,
      slots'.listed.entryNamed_eq proper.2.1 entry]
  · intro other noNul some differ
    apply enters.toChangesEntry.lookup slots.toSlots slots'.toSlots touches.inode size count range readable
      noNul some
    · rintro ⟨used, -⟩
      rw [enters.free] at used
      cases used
    · rintro ⟨-, named⟩
      exact differ (named.unique enters.named)
  · rw [result]
    dsimp only
    rw [FsCtx.setInode_self]
    rfl

variable (env dirs) in
theorem removalScan_erases (range : (d : Int) < fs.sb.sbInodesCount)
    (readable : fs.Readable (fs.itable d)) (nodup : (fs.itable d).entries.Nodup)
    (slots : fs.OneToOne d) (member : addr ∈ (fs.itable d).entries)
    (number : fs.dentryIno addr = i) (named : fs.Named addr name) :
    ∃ fs', removalScan env fs d i dirs = .ok (fs', 0) ∧ inodeLookup fs' d name = .ok (-1) ∧
      (∀ other, 0#8 ∉ other → other ≠ [] → other ≠ name →
        inodeLookup fs' d other = inodeLookup fs d other) ∧
      (fs'.itable d).numEntries = ((fs.itable d).numEntries + 2 ^ 32 - 1) % 2 ^ 32 ∧
      fs'.OneToOne d := by
  have search : fs.findIno (fs.itable d) i = .ok (some addr) := by
    rw [findIno_eq readable]
    obtain ⟨a, found⟩ : ∃ a, (fs.itable d).entries.find? (fun a => fs.dentryIno a = i) = some a := by
      rw [← Option.isSome_iff_exists, List.find?_isSome]
      exact ⟨addr, member, by simpa using number⟩
    have hit : fs.dentryIno a = i := by simpa using List.find?_some found
    have same : a = addr := slots.numbers a (List.mem_of_find?_eq_some found) addr member
      (inUse_iff.mpr (by omega)) (inUse_iff.mpr (by omega)) (hit.trans number.symm)
    rw [found, same]
  have read : fs.inodeAt d = .ok (fs.itable d) := inodeAt_ok.mpr ⟨⟨by omega, range⟩, rfl⟩
  have scanned : removalScan env fs d i dirs = .ok (clearDentry fs d addr dirs env.now, 0) := by
    rw [removalScan, read, ok_bind, search]
    rfl
  have extents : (fs.itable d).SameExtents ((clearDentry fs d addr dirs env.now).itable d) := by
    have touches : fs.creditBlock.Touches (clearDentry fs d addr dirs env.now) d := clearDentry_touches
    exact touches.inode
  have readable' : (clearDentry fs d addr dirs env.now).Readable
      ((clearDentry fs d addr dirs env.now).itable d) := readable.same extents rfl
  have clears : fs.Clears (clearDentry fs d addr dirs env.now) d addr i name :=
    clearDentry_clears rfl rfl nodup member number named
  have slots' := slots.clears clears
  have looked : inodeLookup (clearDentry fs d addr dirs env.now) d name = .ok _ :=
    inodeLookup_returns range readable' named.2.2.1
  refine ⟨_, scanned, ?_, ?_, ?_, slots'⟩
  · rw [looked]
    by_contra found
    obtain ⟨j, -, entry⟩ := slots'.listed.entry_of_entryNamed named.1 fun none => found (by rw [none])
    obtain ⟨old, differ⟩ := (clears.entry slots.listed).mp entry
    have entry' : fs.Entry d name i := slots.listed.entry_iff.mpr ⟨addr, member, number, named⟩
    exact differ ⟨rfl, slots.listed.target_unique named.2.1 old entry'⟩
  · intro other noNul some differ
    apply clears.toChangesEntry.lookup slots.toSlots slots'.toSlots extents rfl rfl range readable
      noNul some
    · rintro ⟨-, named'⟩
      exact differ (named'.unique named)
    · rintro ⟨used, -⟩
      rw [clears.free] at used
      cases used
  · simp only [clearDentry, FsCtx.setInode_self]

/-- A directory with a free slot is a finite map exactly if the offsets of its blocks fit in an `int`. -/
theorem finite_map_iff (range : (d : Int) < fs.sb.sbInodesCount)
    (last : (fs.itable d).lastUsedExtent < 12) (nodup : (fs.itable d).blocks.Nodup)
    (inside : ∀ b ∈ (fs.itable d).blocks, b < fs.dataBlocks) (slots : fs.OneToOne d)
    (room : ∃ a ∈ (fs.itable d).entries, fs.inUse a = false)
    (entries : (fs.itable d).numEntries < 2 ^ 32)
    (proper : 0#8 ∉ name ∧ name ≠ [] ∧ name.length < a1fsNameMax)
    (absent : ∀ a ∈ (fs.itable d).entries, fs.inUse a = true → ¬ fs.Named a name)
    (small : i < 2 ^ 31) (new : ∀ a ∈ (fs.itable d).entries, fs.dentryIno a ≠ i) :
    fs.IsFiniteMap d name i now env dirs ↔ ∀ b ∈ (fs.itable d).blocks, 4096 * b < 2 ^ 31 := by
  constructor
  · rintro ⟨added, fs', -, inserted, removed, erased⟩
    have kept : (added.itable d).blocks = (fs.itable d).blocks := by
      rw [A1fsInode.blocks, A1fsInode.usedSlots, (inserted.extents d).1, (inserted.extents d).2]
      rfl
    have same : (fs'.itable d).blocks = (added.itable d).blocks := by
      rw [removalScan, bind_eq_ok] at removed
      obtain ⟨dir, -, removed⟩ := removed
      rw [bind_eq_ok] at removed
      obtain ⟨found, -, removed⟩ := removed
      cases found with
      | none =>
        obtain ⟨rfl, -⟩ := Prod.mk.inj (pure_eq_ok.mp removed)
        rfl
      | some addr =>
        cases removed
        have touches : added.creditBlock.Touches (clearDentry added d addr dirs env.now) d :=
          clearDentry_touches
        exact touches.inode.blocks
    rw [← kept, ← same]
    exact erased.slots.toSlots.visits proper.1 proper.2.1 erased.gone
  · intro near
    have readable := FsCtx.Readable.of_blocks last inside near
    have nodup' : (fs.itable d).entries.Nodup := entries_nodup nodup
    obtain ⟨added, addr, add, inserted, enters, touches, slots', more⟩ :=
      addDentry_inserts now range readable nodup' slots room proper absent small new
    have count : added.sb.sbInodesCount = fs.sb.sbInodesCount := by
      rw [← touches.sb]
    have size : added.dataSize = fs.dataSize := by
      rw [FsCtx.dataSize, FsCtx.dataSize, touches.size, ← touches.sb]
    have readable' := readable.same touches.inode size
    have member : addr ∈ (added.itable d).entries := by
      rw [enters.entries]
      exact enters.member
    have nodup'' : (added.itable d).entries.Nodup := by rwa [enters.entries]
    obtain ⟨fs', removed, gone, others, fewer, back⟩ :=
      removalScan_erases env dirs (by omega) readable' nodup'' slots' member
        enters.number enters.named
    refine ⟨added, fs', add, inserted, removed, gone, others, ?_, back⟩
    omega

end Map

/-- A root directory whose one block holds one entry, "b" for inode 3, in its second slot. -/
def directoryAt (block : Nat) : FsCtx where
  size := 4096 * (block + 5)
  sb := ⟨0#64, 4096 * (block + 5), 4, 0, block + 5, 2, 1, 3, block, 14, 16, 1⟩
  inodeBits := ⟨2, fun _ => 0x09#8⟩
  blockBits := ⟨4096, fun k => if k = block / 8 then Bitmap.mask block else 0#8⟩
  itable := fun _ => ⟨sIfdir, 2, 1, ⟨0, 0⟩, fun _ => ⟨block, 1, 0⟩, 0, -1, 1⟩
  data := Bytes.store (Bytes.set32 (fun x => if x % 256 < 4 then 255#8 else 0#8) (4096 * block + 256) 3#32)
    (4096 * block + 260) [98#8, 0#8]

theorem directoryAt_oneToOne {block : Nat}
    (number : ∀ a ∈ ((directoryAt block).itable 0).entries, (directoryAt block).inUse a = true →
      (directoryAt block).dentryIno a = 3)
    (named : ∀ a ∈ ((directoryAt block).itable 0).entries, (directoryAt block).inUse a = true →
      nameIs (directoryAt block).data (a + 4) [98#8] = true)
    (alone : ∀ a ∈ ((directoryAt block).itable 0).entries,
      ∀ a' ∈ ((directoryAt block).itable 0).entries, (directoryAt block).inUse a = true →
      (directoryAt block).inUse a' = true → a = a')
    (blank : ∀ a ∈ ((directoryAt block).itable 0).entries, (directoryAt block).inUse a = false →
      (directoryAt block).data (a + 4) = 0#8) : (directoryAt block).OneToOne 0 := by
  have proper : 0#8 ∉ [98#8] ∧ [98#8] ≠ [] ∧ [98#8].length < a1fsNameMax := by decide
  refine ⟨⟨fun a member used => ?_, fun a member used => ?_, ?_, blank⟩, ?_⟩
  · rw [number a member used]
    decide
  · exact ⟨[98#8], proper.1, proper.2.1, proper.2.2, named a member used⟩
  · exact fun a member a' member' used used' _ _ _ => alone a member a' member' used used'
  · exact fun a member a' member' used used' _ => alone a member a' member' used used'

theorem finite_map_iff_first : (directoryAt 0).IsFiniteMap 0 [97#8] 1 ⟨0, 0⟩ ⟨⟨0, 0⟩, 0⟩ 1 := by
  have slots : (directoryAt 0).OneToOne 0 :=
    directoryAt_oneToOne (by decide +kernel) (by decide +kernel) (by decide +kernel) (by decide +kernel)
  have absent : ∀ a ∈ ((directoryAt 0).itable 0).entries,
      nameIs (directoryAt 0).data (a + 4) [97#8] = false := by decide +kernel
  have fresh (a : Nat) (member : a ∈ ((directoryAt 0).itable 0).entries) (_ : (directoryAt 0).inUse a = true) :
      ¬ (directoryAt 0).Named a [97#8] := by
    intro named
    have read := named.2.2.2
    rw [absent a member] at read
    cases read
  have exactly : (directoryAt 0).IsFiniteMap 0 [97#8] 1 ⟨0, 0⟩ ⟨⟨0, 0⟩, 0⟩ 1 ↔ _ :=
    finite_map_iff (by decide) (by decide) (by decide) (by decide) slots (by decide +kernel) (by decide)
      (by decide) fresh (by decide) (by decide +kernel)
  exact exactly.mpr (by decide)

/-- The block at 2 GiB of the data region cannot be addressed. -/
theorem finite_map_fails :
    ((directoryAt (2 ^ 19)).itable 0).lastUsedExtent < 12 ∧ ((directoryAt (2 ^ 19)).itable 0).blocks.Nodup ∧
      (directoryAt (2 ^ 19)).OneToOne 0 ∧
      (∃ a ∈ ((directoryAt (2 ^ 19)).itable 0).entries, (directoryAt (2 ^ 19)).inUse a = false) ∧
      (∀ b ∈ ((directoryAt (2 ^ 19)).itable 0).blocks, b < (directoryAt (2 ^ 19)).dataBlocks) ∧
      (∀ a ∈ ((directoryAt (2 ^ 19)).itable 0).entries, (directoryAt (2 ^ 19)).dentryIno a ≠ 1 ∧
        nameIs (directoryAt (2 ^ 19)).data (a + 4) [97#8] = false) ∧
      ¬ (directoryAt (2 ^ 19)).IsFiniteMap 0 [97#8] 1 ⟨0, 0⟩ ⟨⟨0, 0⟩, 0⟩ 1 := by
  refine ⟨by decide, by decide, directoryAt_oneToOne (by decide +kernel) (by decide +kernel)
    (by decide +kernel) (by decide +kernel), by decide +kernel, by decide +kernel, by decide +kernel, ?_⟩
  have fails : ∃ e, addDentry (directoryAt (2 ^ 19)) 0 1 [97#8] ⟨0, 0⟩ = .error e ∧ e = .overflow := by
    decide +kernel
  obtain ⟨e, failed, -⟩ := fails
  rintro ⟨added, fs', add, -⟩
  rw [failed] at add
  cases add

end ExtentFs
