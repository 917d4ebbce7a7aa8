import ExtentFs.Effects.Allocate

namespace ExtentFs

open Base Base.Bytes

def blockEntries (b : Nat) : List Nat := (List.range' 0 16 256).map fun k => 4096 * b + k

/-- The addresses of the entries of a directory, in the order of the scans. -/
def A1fsInode.entries (dir : A1fsInode) : List Nat := dir.blocks.flatMap blockEntries

theorem mem_blockEntries {b a : Nat} : a ∈ blockEntries b ↔ ∃ k < 16, a = 4096 * b + 256 * k := by
  simp only [blockEntries, List.mem_map, List.mem_range', Nat.zero_add]
  constructor
  · rintro ⟨_, ⟨k, bound, rfl⟩, rfl⟩
    exact ⟨k, bound, rfl⟩
  · rintro ⟨k, bound, rfl⟩
    exact ⟨256 * k, ⟨k, bound, rfl⟩, rfl⟩

theorem A1fsInode.mem_entries {dir : A1fsInode} {a : Nat} :
    a ∈ dir.entries ↔ ∃ b ∈ dir.blocks, a ∈ blockEntries b := by
  rw [entries, List.mem_flatMap]

section Scan

variable {fs : FsCtx} {dir : A1fsInode}

theorem dentryAddr_ok {j k a : Nat} : fs.dentryAddr j k = .ok a ↔
    4096 * j < 2 ^ 31 ∧ 4096 * j + k + 256 ≤ fs.dataSize ∧ a = 4096 * j + k := by
  simp only [FsCtx.dentryAddr, FsCtx.blockOffset, bind_eq_ok, guard_eq_ok, Except.ok.injEq, intArith_ok]
  constructor
  · rintro ⟨offset, ⟨bounds, rfl⟩, inside, same⟩
    omega
  · rintro ⟨fits, inside, rfl⟩
    exact ⟨_, ⟨⟨by omega, by omega⟩, rfl⟩, by omega, by omega⟩

/-- A scan that returns is a search through the entries. -/
theorem scanDentries_ok {β : Type} {body : Nat → Checked (Option β)} {r : Option β}
    (h : fs.scanDentries dir body = .ok r) : dir.entries.findSomeM? body = .ok r := by
  have flat : dir.entries.findSomeM? body = dir.usedSlots.findSomeM? fun i =>
      ((dir.iExtent i).blocks).findSomeM? fun j =>
        (List.range' 0 16 256).findSomeM? fun k => body (4096 * j + k) := by
    rw [A1fsInode.entries, findSomeM?_flatMap, A1fsInode.blocks, findSomeM?_flatMap]
    refine findSomeM?_congr fun i _ => findSomeM?_congr fun j _ => ?_
    rw [blockEntries, findSomeM?_map]
  rw [flat]
  refine findSomeM?_refine (fun i _ s found => ?_) h
  rw [bind_eq_ok] at found
  obtain ⟨extent, read, found⟩ := found
  obtain ⟨-, same⟩ := guard_eq_ok.mp read
  cases same
  refine findSomeM?_refine (fun j _ s found => ?_) found
  refine findSomeM?_refine (fun k _ s found => ?_) found
  rw [bind_eq_ok] at found
  obtain ⟨addr, place, found⟩ := found
  obtain ⟨-, -, rfl⟩ := dentryAddr_ok.mp place
  exact found

theorem findIno_ok {ino : Int} {r : Option Nat} (h : fs.findIno dir ino = .ok r) :
    r = dir.entries.find? fun a => fs.dentryIno a = ino := by
  have search := scanDentries_ok h
  have pure_ : dir.entries.findSomeM?
      (fun a => (return if fs.dentryIno a = ino then some a else none : Checked (Option Nat))) =
      .ok (dir.entries.findSome? fun a => if fs.dentryIno a = ino then some a else none) :=
    findSomeM?_ok fun a _ => rfl
  rw [pure_] at search
  cases search
  induction dir.entries with
  | nil => rfl
  | cons a l ih =>
    rw [List.findSome?_cons, List.find?_cons]
    by_cases same : fs.dentryIno a = ino
    · simp [same]
    · simpa [same] using ih

theorem findIno_none {ino : Int} (h : fs.findIno dir ino = .ok none) :
    ∀ a ∈ dir.entries, fs.dentryIno a ≠ ino := by
  have none := (findIno_ok h).symm
  rw [List.find?_eq_none] at none
  simpa using none

end Scan

section Free

variable {data : Bytes} {b x k : Nat}

theorem foldl_set32_outside {l : List Nat} {v : BitVec 32}
    (outside : ∀ k ∈ l, x < 4096 * b + k ∨ 4096 * b + k + 4 ≤ x) :
    l.foldl (fun m k => m.set32 (4096 * b + k) v) data x = data x := by
  induction l generalizing data with
  | nil => rfl
  | cons k l ih =>
    rw [List.foldl_cons, ih fun k member => outside k (by simp [member])]
    exact set32_outside _ (outside k (by simp))

theorem freeEntries_outside (outside : x < 4096 * b ∨ 4096 * b + 4096 ≤ x) :
    FsCtx.freeEntries data b x = data x := by
  refine foldl_set32_outside fun k member => ?_
  rw [List.mem_range'] at member
  omega

theorem freeEntries_name (name : 4 ≤ x % 256) : FsCtx.freeEntries data b x = data x := by
  refine foldl_set32_outside fun k member => ?_
  rw [List.mem_range'] at member
  omega

theorem foldl_set32_word {l : List Nat} {v : BitVec 32} (member : k ∈ l)
    (apart : l.Pairwise fun k k' => k + 4 ≤ k' ∨ k' + 4 ≤ k) :
    (l.foldl (fun m k => m.set32 (4096 * b + k) v) data).word32 (4096 * b + k) = v := by
  induction l generalizing data with
  | nil => cases member
  | cons k' l ih =>
    obtain ⟨first, rest⟩ := List.pairwise_cons.mp apart
    rw [List.foldl_cons]
    rcases List.mem_cons.mp member with rfl | member
    · have kept : (l.foldl (fun m k => m.set32 (4096 * b + k) v)
          (data.set32 (4096 * b + k) v)).word32 (4096 * b + k) =
          (data.set32 (4096 * b + k) v).word32 (4096 * b + k) := by
        refine word32_congr fun i bound => foldl_set32_outside fun k' member => ?_
        have := first k' member
        omega
      rw [kept, word32_set32]
    · exact ih member rest

theorem freeEntries_ino {a : Nat} (member : a ∈ blockEntries b) :
    (FsCtx.freeEntries data b).word32 a = -1#32 := by
  obtain ⟨k, bound, rfl⟩ := mem_blockEntries.mp member
  refine foldl_set32_word (List.mem_range'.mpr ⟨k, bound, by omega⟩) ?_
  decide

end Free

namespace FsCtx

def AddsBlock (fs : FsCtx) (i : Nat) (now : Timespec) (fs' : FsCtx) : Prop :=
  ∃ block inode, Growth fs i 1 now block inode ∧ fs.EntriesInside inode ∧
    fs' = (fs.grown i inode .directory).flipBlocks [block] 1

def NoBlock (fs : FsCtx) : Prop :=
  ∃ a < 0, getAvailableBit fs.sb fs.blockBits .data 1 = .ok a

/-- The search for a free block ends in the data region, at an address that an `int` holds. -/
def HasBlock (fs : FsCtx) : Prop :=
  ∃ block : Nat, getAvailableBit fs.sb fs.blockBits .data 1 = .ok (block : Int) ∧
    block < fs.dataBlocks ∧ 4096 * block < 2 ^ 31

instance (fs : FsCtx) : Decidable fs.NoBlock :=
  decidable_of_iff (∃ a, getAvailableBit fs.sb fs.blockBits .data 1 = .ok a ∧ a < 0) <| by
    exact exists_congr fun a => and_comm

instance (fs : FsCtx) : Decidable fs.HasBlock :=
  decidable_of_iff (∃ a, getAvailableBit fs.sb fs.blockBits .data 1 = .ok a ∧ 0 ≤ a ∧
      a.toNat < fs.dataBlocks ∧ 4096 * a.toNat < 2 ^ 31) <| by
    constructor
    · rintro ⟨a, search, low, inside⟩
      obtain ⟨block, rfl⟩ := Int.eq_ofNat_of_zero_le low
      exact ⟨block, search, inside⟩
    · rintro ⟨block, search, inside⟩
      exact ⟨block, search, by omega, inside⟩

def MayAdd (fs : FsCtx) (i : Nat) (now : Timespec) (needed : Prop) (fs' : FsCtx) : Prop :=
  (¬needed ∧ fs' = fs) ∨ (needed ∧ fs.AddsBlock i now fs')

end FsCtx

section Block

variable {fs fs' : FsCtx} {i n start : Nat} {now : Timespec} {inode : A1fsInode}

theorem Growth.blocks (growth : Growth fs i n now start inode) :
    inode.blocks = (fs.itable i).blocks ++ List.range' start n := by
  cases growth with
  | append _ _ low => exact A1fsInode.blocks_appendExtent low
  | attach _ _ low => exact A1fsInode.blocks_extendLast low

theorem Growth.last (growth : Growth fs i n now start inode) :
    0 ≤ inode.lastUsedExtent ∧ inode.lastUsedExtent < 12 := by
  cases growth with
  | append _ _ low room =>
    simp only [A1fsInode.appendExtent]
    omega
  | attach _ _ low room => exact ⟨low, room⟩

theorem Growth.last_count (growth : Growth fs i n now start inode) (some : 0 < n) :
    0 < (inode.iExtent inode.lastUsedExtent.toNat).count := by
  cases growth with
  | append =>
    simp only [A1fsInode.appendExtent, A1fsInode.setExtent_self]
    exact some
  | attach =>
    change 0 < (((fs.itable i).setExtent (fs.itable i).lastUsedExtent.toNat _).iExtent
      (fs.itable i).lastUsedExtent.toNat).count
    rw [A1fsInode.setExtent_self]
    exact Nat.add_pos_right _ some

theorem Growth.first_mem (growth : Growth fs i n now start inode) (some : 0 < n) :
    (inode.iExtent inode.lastUsedExtent.toNat).start ∈ inode.blocks := by
  have slot : inode.lastUsedExtent.toNat ∈ inode.usedSlots := by
    rw [A1fsInode.mem_usedSlots]
    have := growth.last
    omega
  refine A1fsInode.mem_blocks.mpr ⟨_, slot, A1fsExtent.mem_blocks.mpr ⟨le_refl _, ?_⟩⟩
  have count := growth.last_count some
  omega

theorem FsCtx.AddsBlock.free (added : fs.AddsBlock i now fs') :
    fs'.findIno (fs'.itable i) (-1) ≠ .ok none := by
  obtain ⟨block, inode, growth, -, rfl⟩ := added
  intro none
  have table : ((fs.grown i inode .directory).flipBlocks [block] 1).itable i = inode := if_pos rfl
  rw [table] at none
  set first := (inode.iExtent inode.lastUsedExtent.toNat).start with firstDef
  have entry : 4096 * first + 256 * 0 ∈ blockEntries first := mem_blockEntries.mpr ⟨0, by omega, rfl⟩
  refine findIno_none none _ (A1fsInode.mem_entries.mpr ⟨first, growth.first_mem (by omega), entry⟩) ?_
  change ((FsCtx.freeEntries fs.data first).word32 (4096 * first + 256 * 0)).toInt = -1
  rw [freeEntries_ino entry]
  decide

end Block

end ExtentFs
