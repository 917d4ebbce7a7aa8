import ExtentFs.Base.Ownership
import ExtentFs.Effects.Lookups
import ExtentFs.Invariants.Files

namespace ExtentFs

open Base Base.Bytes

namespace FsCtx

def liveBlocks (fs : FsCtx) (i : Nat) : List Nat := if fs.live i = true then (fs.itable i).blocks else []

/-- The bitmaps cover the inodes and the data blocks, live inodes have marked blocks of their own,
    and the slots of live directories name every live inode at most once. -/
structure Orderly (fs : FsCtx) : Prop where
  inodeBits : ∀ i : Nat, (i : Int) < fs.sb.sbInodesCount → i / 8 < fs.inodeBits.length
  blockBits : ∀ b < fs.dataBlocks, b / 8 < fs.blockBits.length
  root : sIsdir (fs.itable 0).mode = true
  last : ∀ i, fs.live i = true → (fs.itable i).lastUsedExtent < 12
  counted : ∀ i, fs.live i = true → (fs.itable i).Counted
  inside : ∀ i, ∀ b ∈ fs.liveBlocks i, b < fs.dataBlocks
  exclusive : Exclusive fs.liveBlocks
  marked : ∀ i, ∀ b ∈ fs.liveBlocks i, fs.blockBits.test b = true
  slots : ∀ d, fs.live d = true → sIsdir (fs.itable d).mode = true → fs.Slots d
  once : ∀ d d' a a' j, fs.live d = true → fs.live d' = true → sIsdir (fs.itable d).mode = true →
    sIsdir (fs.itable d').mode = true → a ∈ (fs.itable d).entries → a' ∈ (fs.itable d').entries →
    fs.live j = true → j ≠ 0 → fs.dentryIno a = j → fs.dentryIno a' = j → d = d' ∧ a = a'

/-- One component of a path: a lookup in a live directory. -/
def Passes (fs : FsCtx) (d : Nat) (token : List Byte) (j : Nat) : Prop :=
  fs.live d = true ∧ sIsdir (fs.itable d).mode = true ∧ inodeLookup fs d token = .ok (j : Int)

/-- A path leads through live directories to a live regular file. -/
structure NamesFile (fs : FsCtx) (path : CString) (i : Nat) : Prop where
  walk : Walk fs.Passes 0 (strtok path.bytes) i
  live : fs.live i = true
  regular : sIsreg (fs.itable i).mode = true

/-- The slot that holds the last component of a path. -/
structure HoldsName (fs : FsCtx) (path : CString) (i d addr : Nat) (name : List Byte) : Prop where
  before : ∃ tokens, strtok path.bytes = tokens ++ [name] ∧ Walk fs.Passes 0 tokens d
  passes : fs.Passes d name i
  member : addr ∈ (fs.itable d).entries
  number : fs.dentryIno addr = i
  named : fs.Named addr name

end FsCtx

section Walks

variable {fs fs' : FsCtx} {path : CString} {d i : Nat} {tokens rest : List (List Byte)} {name : List Byte}

theorem walkTokens_passes (walk : Walk fs.Passes d tokens i) (par : Int) :
    ∃ par', walkTokens fs (tokens ++ rest) par d = walkTokens fs rest par' i := by
  induction walk generalizing par with
  | nil => exact ⟨par, rfl⟩
  | @cons d j i token tokens head tail ih =>
    obtain ⟨par', same⟩ := ih (d : Int)
    refine ⟨par', ?_⟩
    rw [List.cons_append, walkTokens, if_pos (by omega), head.2.2, ok_bind]
    exact same

theorem getInodeNum_passes (walk : Walk fs.Passes 0 (strtok path.bytes) i) :
    getInodeNum fs path 0 = .ok (i : Int) := by
  obtain ⟨par, walked⟩ : ∃ par', walkTokens fs (strtok path.bytes ++ []) 0 (0 : Nat) = walkTokens fs [] par' i :=
    walkTokens_passes walk 0
  rw [List.append_nil] at walked
  change walkTokens fs (strtok path.bytes) 0 0 = _ at walked
  rw [getInodeNum, walked]
  rfl

theorem getInodeNum_before (split : strtok path.bytes = tokens ++ [name]) (walk : Walk fs.Passes 0 tokens d)
    (passes : fs.Passes d name i) : getInodeNum fs path 1 = .ok (d : Int) := by
  obtain ⟨par, walked⟩ : ∃ par', walkTokens fs (tokens ++ [name]) 0 (0 : Nat) = walkTokens fs [name] par' d :=
    walkTokens_passes walk 0
  change walkTokens fs (tokens ++ [name]) 0 0 = _ at walked
  rw [getInodeNum, split, walked, walkTokens, if_pos (by omega), passes.2.2]
  rfl

end Walks

section Holds

variable {fs : FsCtx} {path : CString} {i d b : Nat}

theorem FsCtx.liveBlocks_of_live (alive : fs.live i = true) : fs.liveBlocks i = (fs.itable i).blocks :=
  if_pos alive

namespace FsCtx.Orderly

variable (orderly : fs.Orderly)

include orderly

theorem blocks_inside (alive : fs.live i = true) : ∀ b ∈ (fs.itable i).blocks, b < fs.dataBlocks := by
  rw [← liveBlocks_of_live alive]
  exact orderly.inside i

theorem nodup (alive : fs.live i = true) : (fs.itable i).blocks.Nodup := by
  rw [← liveBlocks_of_live alive]
  exact orderly.exclusive.nodup i

theorem apart (alive : fs.live i = true) (alive' : fs.live d = true) (differ : i ≠ d) :
    (fs.itable i).blocks.Disjoint (fs.itable d).blocks := by
  rw [← liveBlocks_of_live alive, ← liveBlocks_of_live alive']
  exact orderly.exclusive.apart i d differ

theorem not_root (names : fs.NamesFile path i) : i ≠ 0 := by
  rintro rfl
  have regular := names.regular
  rw [not_regular orderly.root] at regular
  cases regular

theorem holds (names : fs.NamesFile path i) : ∃ d addr name, fs.HoldsName path i d addr name := by
  have walk := names.walk
  rcases List.eq_nil_or_concat (strtok path.bytes) with none | ⟨before, name, split⟩
  · rw [none] at walk
    exact absurd (Walk.nil_iff.mp walk) (orderly.not_root names)
  · rw [List.concat_eq_append] at split
    have member : name ∈ strtok path.bytes := by
      rw [split]
      simp
    rw [split] at walk
    obtain ⟨d, first, passes⟩ := Walk.concat_iff.mp walk
    have listed := (orderly.slots d passes.1 passes.2.1).listed
    obtain ⟨-, same⟩ := inodeLookup_ok passes.2.2
    obtain ⟨j, number, entry⟩ := listed.entry_of_entryNamed (token_noNul member) (by omega)
    obtain rfl : i = j := by omega
    obtain ⟨addr, inside, number, named⟩ := listed.entry_iff.mp entry
    exact ⟨d, addr, name, ⟨before, split, first⟩, passes, inside, number, named⟩

end FsCtx.Orderly

end Holds

def FsCtx.unlinked (fs : FsCtx) (i d addr : Nat) (now : Timespec) : FsCtx :=
  clearDentry ((fs.flipBlocks (fs.itable i).blocks 0).dropInode i now) d addr 0 now

section Unlink

variable {fs fs' : FsCtx} {path : CString} {i d addr : Nat} {name : List Byte}

namespace FsCtx.HoldsName

variable (orderly : fs.Orderly) (holds : fs.HoldsName path i d addr name)

include orderly holds

theorem alone {a : Nat} (member : a ∈ (fs.itable d).entries)
    (read : nameIs fs.data (a + 4) name = true) : a = addr := by
  have slots := orderly.slots d holds.passes.1 holds.passes.2.1
  have number := holds.number
  obtain ⟨used, named⟩ := (slots.nameIs_iff member holds.named.1 holds.named.2.1).mp read
  exact slots.distinct a member addr holds.member used (inUse_iff.mpr (by omega)) name named holds.named

/-- The search for the number of the file ends where the lookup of its name ended. -/
theorem search (alive : fs.live i = true) (other : i ≠ 0) (table : fs'.itable d = fs.itable d)
    (size : fs'.dataSize = fs.dataSize) (data : fs'.data = fs.data) :
    fs'.findIno (fs'.itable d) i = .ok (some addr) := by
  obtain ⟨live, dir, look⟩ := holds.passes
  have slots := orderly.slots d live dir
  obtain ⟨-, found, scan, number⟩ := inodeLookup_scan.mp look
  have hit : ∃ r, found = some r := by
    cases found with
    | none => cases number
    | some r => exact ⟨r, rfl⟩
  obtain ⟨r, rfl⟩ := hit
  have moved : fs'.findIno (fs'.itable d) i = .ok ((some r).map fun _ => addr) := by
    rw [table]
    apply scanDentries_transfer .refl size (fun a member s test => ?_) scan
    have number : fs'.dentryIno a = fs.dentryIno a := by rw [FsCtx.dentryIno, data, FsCtx.dentryIno]
    have place := entries_inside (orderly.blocks_inside live) a member
    rw [slots.strcmp member place holds.named.1, ok_bind] at test
    rw [number]
    by_cases read : nameIs fs.data (a + 4) name = true
    · rw [if_pos read] at test
      cases test
      obtain rfl := holds.alone orderly member read
      rw [if_pos holds.number]
      rfl
    · rw [if_neg read] at test
      cases test
      rw [if_neg]
      · rfl
      · intro same
        obtain ⟨-, rfl⟩ := orderly.once d d a addr i live live dir dir member holds.member alive other
          same holds.number
        exact read holds.named.2.2.2
  exact moved

end FsCtx.HoldsName

theorem FsCtx.Passes.keeps (orderly : fs.Orderly) {j : Nat} (passes : fs.Passes d name j)
    (noNul : 0#8 ∉ name) (some : name ≠ []) (live : fs'.live d = true) (slots' : fs'.Slots d)
    (extents : (fs.itable d).SameExtents (fs'.itable d)) (size : fs'.dataSize = fs.dataSize)
    (count : fs'.sb.sbInodesCount = fs.sb.sbInodesCount)
    (same : ∀ a ∈ (fs.itable d).entries, fs.SameEntry fs' a ∨
      ¬ (fs.inUse a = true ∧ fs.Named a name) ∧ ¬ (fs'.inUse a = true ∧ fs'.Named a name)) :
    fs'.Passes d name j := by
  obtain ⟨alive, dir, look⟩ := passes
  refine ⟨live, by rw [extents.mode]; exact dir, ?_⟩
  exact inodeLookup_keeps (orderly.slots d alive dir) slots' extents size count
    (entries_inside (orderly.blocks_inside alive)) noNul some same look

theorem FsCtx.NamesFile.apart (names : fs.NamesFile path i) {j : Nat} (passes : fs.Passes d name j) :
    d ≠ i := by
  rintro rfl
  have regular := names.regular
  rw [not_regular passes.2.1] at regular
  cases regular

/-- The path of a file is walked in the same way when the file's inode has been reset. -/
theorem FsCtx.NamesFile.passes_dropped (orderly : fs.Orderly) (names : fs.NamesFile path i) (l : List Nat)
    (now : Timespec) {j : Nat} (noNul : 0#8 ∉ name) (some : name ≠ []) (passes : fs.Passes d name j) :
    ((fs.flipBlocks l 0).dropInode i now).Passes d name j := by
  have differ := names.apart passes
  have table : ((fs.flipBlocks l 0).dropInode i now).itable d = fs.itable d := FsCtx.setInode_other differ
  have live : ((fs.flipBlocks l 0).dropInode i now).live d = fs.live d := dropInode_live differ
  have same : fs.SameDirectory ((fs.flipBlocks l 0).dropInode i now) d :=
    ⟨by rw [table], fun a _ k _ => rfl⟩
  have extents : (fs.itable d).SameExtents (((fs.flipBlocks l 0).dropInode i now).itable d) := by
    rw [table]
    exact .refl
  exact passes.keeps orderly noNul some (live.trans passes.1)
    ((orderly.slots d passes.1 passes.2.1).same same) extents rfl rfl fun a _ => .inl fun k _ => rfl

theorem a1fsUnlink_returns (env : Env) (orderly : fs.Orderly) (names : fs.NamesFile path i)
    (holds : fs.HoldsName path i d addr name) :
    a1fsUnlink env fs path = .ok (fs.unlinked i d addr env.now, 0) := by
  obtain ⟨tokens, split, before⟩ := holds.before
  have alive := names.live
  have differ := names.apart holds.passes
  obtain ⟨range, marked⟩ := live_iff.mp alive
  have read : fs.inodeAt i = .ok (fs.itable i) := inodeAt_ok.mpr ⟨⟨by omega, range⟩, rfl⟩
  have inside := orderly.blocks_inside alive
  have free (sb : A1fsSuperblock) : freeExtents (fs.itable i) (fs.itable i).usedSlots sb fs.blockBits =
      .ok ({ sb with sbFreeBlocksCount := countFlips 0 sb.sbFreeBlocksCount (fs.itable i).blocks.length },
        fs.blockBits.flipAll (fs.itable i).blocks, true) := by
    have last := orderly.last i alive
    apply freeExtents_returns sb (fun k slot => ?_) (orderly.nodup alive) fun b member => ?_
    · have within := A1fsInode.mem_usedSlots.mp slot
      exact ⟨by omega, orderly.counted i alive k slot⟩
    · refine ⟨orderly.blockBits b (inside b member), orderly.marked i b ?_⟩
      rw [FsCtx.liveBlocks_of_live alive]
      exact member
  have member : name ∈ strtok path.bytes := by
    rw [split]
    simp
  have walk : Walk ((fs.flipBlocks (fs.itable i).blocks 0).dropInode i env.now).Passes 0 tokens d := by
    apply before.imp (P := fun _ => True) trivial (fun _ _ _ _ => trivial)
    intro e token j within passes _
    have member : token ∈ strtok path.bytes := by
      rw [split]
      exact List.mem_append_left _ within
    exact names.passes_dropped orderly _ _ (token_noNul member) (mem_strtok member).1 passes
  have last := names.passes_dropped orderly (fs.itable i).blocks env.now (token_noNul member)
    (mem_strtok member).1 holds.passes
  have parent : getInodeNum ((fs.flipBlocks (fs.itable i).blocks 0).dropInode i env.now) path 1 =
      .ok (d : Int) := getInodeNum_before split walk last
  have search : ((fs.flipBlocks (fs.itable i).blocks 0).dropInode i env.now).findIno
      (((fs.flipBlocks (fs.itable i).blocks 0).dropInode i env.now).itable d) i = .ok (some addr) :=
    holds.search orderly alive (orderly.not_root names) (FsCtx.setInode_other differ) rfl rfl
  have removed : removeEntry env (fs.flipBlocks (fs.itable i).blocks 0) path i 0 =
      .ok (fs.unlinked i d addr env.now, 0) :=
    removeEntry_returns (orderly.inodeBits i range) marked (live_iff.mp holds.passes.1).1 parent search
  rw [a1fsUnlink, getInodeNum_passes names.walk, ok_bind, read, ok_bind, Int.toNat_natCast]
  dsimp only
  split
  · rw [free, ok_bind]
    exact removed
  · rename_i unused
    have none : (fs.itable i).blocks = [] := A1fsInode.blocks_of_empty (by omega)
    rw [none, FsCtx.flipBlocks_nil] at removed
    exact removed

end Unlink

section Effect

variable {fs : FsCtx} {i d k addr : Nat} {now : Timespec} {name : List Byte} (differ : d ≠ i)

namespace FsCtx

theorem unlinked_sb : (fs.unlinked i d addr now).sb = { fs.sb with
    sbFreeBlocksCount := fs.sb.sbFreeBlocksCount + (fs.itable i).blocks.length + 1
    sbFreeInodesCount := fs.sb.sbFreeInodesCount + 1 } := by
  simp only [unlinked, clearDentry, dropInode, flipBlocks, setInode, countFlips, if_true, Int.sub_zero]

@[simp] theorem unlinked_inodeBits : (fs.unlinked i d addr now).inodeBits = fs.inodeBits.flip i := rfl

@[simp] theorem unlinked_blockBits :
    (fs.unlinked i d addr now).blockBits = fs.blockBits.flipAll (fs.itable i).blocks := rfl

@[simp] theorem unlinked_data :
    (fs.unlinked i d addr now).data = (fs.data.set32 addr (-1#32)).set8 (addr + 4) 0#8 := rfl

theorem unlinked_other (other : k ≠ d) (other' : k ≠ i) :
    (fs.unlinked i d addr now).itable k = fs.itable k := by
  have dropped : ((fs.flipBlocks (fs.itable i).blocks 0).dropInode i now).itable k = fs.itable k :=
    FsCtx.setInode_other other'
  rw [← dropped]
  exact FsCtx.setInode_other other

theorem unlinked_live (other : k ≠ i) : (fs.unlinked i d addr now).live k = fs.live k := by
  have dropped : ((fs.flipBlocks (fs.itable i).blocks 0).dropInode i now).live k = fs.live k :=
    dropInode_live other
  exact dropped

theorem unlinked_dead (alive : fs.live i = true) : (fs.unlinked i d addr now).live i = false := by
  obtain ⟨-, marked⟩ := live_iff.mp alive
  rw [← Bool.not_eq_true, live_iff, not_and]
  intro _
  change ¬ (fs.inodeBits.flip i).test i = true
  rw [Bitmap.test_flip, marked]
  simp

include differ

theorem unlinked_file : (fs.unlinked i d addr now).itable i = resetInode (fs.itable i) now := by
  have dropped : ((fs.flipBlocks (fs.itable i).blocks 0).dropInode i now).itable i =
      resetInode (fs.itable i) now := FsCtx.setInode_self
  rw [← dropped]
  exact FsCtx.setInode_other differ.symm

theorem unlinked_parent : (fs.unlinked i d addr now).itable d =
    { fs.itable d with
      iMtime := now
      numEntries := ((fs.itable d).numEntries + 2 ^ 32 - 1) % 2 ^ 32
      links := ((fs.itable d).links + 2 ^ 32 - 1) % 2 ^ 32 } := by
  have dropped : ((fs.flipBlocks (fs.itable i).blocks 0).dropInode i now).itable d = fs.itable d :=
    FsCtx.setInode_other differ
  rw [← dropped]
  exact FsCtx.setInode_self

theorem unlinked_extents (other : k ≠ i) :
    (fs.itable k).SameExtents ((fs.unlinked i d addr now).itable k) := by
  by_cases same : k = d
  · rw [same, unlinked_parent differ]
    exact ⟨rfl, rfl, rfl, fun _ => rfl, fun _ => rfl⟩
  · rw [unlinked_other same other]
    exact .refl

theorem unlinked_mode : ((fs.unlinked i d addr now).itable k).mode = (fs.itable k).mode := by
  by_cases same : k = i
  · rw [same, unlinked_file differ]
    rfl
  · exact (unlinked_extents differ same).mode

theorem unlinked_liveBlocks (alive : fs.live i = true) :
    (fs.unlinked i d addr now).liveBlocks k = if k = i then [] else fs.liveBlocks k := by
  by_cases same : k = i
  · rw [if_pos same, same, FsCtx.liveBlocks, unlinked_dead alive, if_neg (by simp)]
  · rw [if_neg same, FsCtx.liveBlocks, unlinked_live same, (unlinked_extents differ same).blocks,
      FsCtx.liveBlocks]

theorem unlinked_clears (nodup : (fs.itable d).entries.Nodup) (member : addr ∈ (fs.itable d).entries)
    (number : fs.dentryIno addr = i) (named : fs.Named addr name) :
    fs.Clears (fs.unlinked i d addr now) d addr i name := by
  have table : ((fs.flipBlocks (fs.itable i).blocks 0).dropInode i now).itable d = fs.itable d :=
    FsCtx.setInode_other differ
  exact clearDentry_clears table rfl nodup member number named

end FsCtx

end Effect

section Preserve

variable {fs : FsCtx} {path : CString} {i d addr : Nat} {name : List Byte} {now : Timespec}
  (orderly : fs.Orderly) (names : fs.NamesFile path i) (holds : fs.HoldsName path i d addr name)

theorem entries_apart_of_disjoint {dir dir' : A1fsInode} {a a' : Nat} (disjoint : dir.blocks.Disjoint dir'.blocks)
    (first : a ∈ dir.entries) (second : a' ∈ dir'.entries) : a + 256 ≤ a' ∨ a' + 256 ≤ a := by
  obtain ⟨b, block, slot⟩ := A1fsInode.mem_entries.mp first
  obtain ⟨b', block', slot'⟩ := A1fsInode.mem_entries.mp second
  have place := blockEntries_place slot
  have place' := blockEntries_place slot'
  have differ : b ≠ b' := by
    rintro rfl
    exact disjoint block block'
  omega

include orderly holds

theorem unlinked_slot {e a : Nat} (alive : fs.live e = true) (member : a ∈ (fs.itable e).entries) :
    (e = d ∧ a = addr) ∨ fs.SameEntry (fs.unlinked i d addr now) a := by
  have outside (apart : a + 256 ≤ addr ∨ addr + 256 ≤ a) : fs.SameEntry (fs.unlinked i d addr now) a := by
    intro k bound
    have other : a + k < addr ∨ addr + 256 ≤ a + k := by omega
    exact clearDentry_outside other
  by_cases same : e = d
  · subst same
    by_cases slot : a = addr
    · exact .inl ⟨rfl, slot⟩
    · exact .inr (outside (entries_apart member holds.member slot))
  · have disjoint := orderly.apart alive holds.passes.1 same
    exact .inr (outside (entries_apart_of_disjoint disjoint member holds.member))

include names

theorem unlinked_cleared : fs.Clears (fs.unlinked i d addr now) d addr i name :=
  FsCtx.unlinked_clears (names.apart holds.passes) (entries_nodup (orderly.nodup holds.passes.1))
    holds.member holds.number holds.named

theorem unlinked_slots {e : Nat} (alive : fs.live e = true) (dir : sIsdir (fs.itable e).mode = true)
    (other : e ≠ i) : (fs.unlinked i d addr now).Slots e := by
  have slots := orderly.slots e alive dir
  by_cases same : e = d
  · subst same
    exact slots.clears (unlinked_cleared orderly names holds)
  · have extents : (fs.itable e).SameExtents ((fs.unlinked i d addr now).itable e) :=
      FsCtx.unlinked_extents (names.apart holds.passes) other
    apply slots.same ⟨by rw [A1fsInode.entries, extents.blocks, A1fsInode.entries], fun a member => ?_⟩
    rcases unlinked_slot orderly holds alive member with ⟨here, -⟩ | bytes
    · exact absurd here same
    · exact bytes

theorem unlinked_number {e a j : Nat} (alive : fs.live e = true) (member : a ∈ (fs.itable e).entries)
    (number : (fs.unlinked i d addr now).dentryIno a = j) : fs.dentryIno a = j := by
  have kept : (e = d ∧ a = addr) ∨ fs.SameEntry (fs.unlinked i d addr now) a :=
    unlinked_slot orderly holds alive member
  rcases kept with ⟨rfl, rfl⟩ | bytes
  · have used : (fs.unlinked i e a now).inUse a = true := inUse_iff.mpr (by omega)
    rw [(unlinked_cleared orderly names holds).free] at used
    cases used
  · rw [← bytes.dentryIno]
    exact number

theorem FsCtx.Orderly.unlinked : (fs.unlinked i d addr now).Orderly := by
  have differ := names.apart holds.passes
  have alive (k : Nat) (live : (fs.unlinked i d addr now).live k = true) : k ≠ i ∧ fs.live k = true := by
    have other : k ≠ i := by
      rintro rfl
      rw [FsCtx.unlinked_dead names.live] at live
      cases live
    exact ⟨other, by rwa [FsCtx.unlinked_live other] at live⟩
  have mode (k : Nat) : ((fs.unlinked i d addr now).itable k).mode = (fs.itable k).mode :=
    FsCtx.unlinked_mode differ
  have extents (k : Nat) (other : k ≠ i) : (fs.itable k).SameExtents ((fs.unlinked i d addr now).itable k) :=
    FsCtx.unlinked_extents differ other
  have blocks (k : Nat) : (fs.unlinked i d addr now).liveBlocks k = if k = i then [] else fs.liveBlocks k :=
    FsCtx.unlinked_liveBlocks differ names.live
  have owned (k b : Nat) (member : b ∈ (fs.unlinked i d addr now).liveBlocks k) : k ≠ i ∧ b ∈ fs.liveBlocks k := by
    rw [blocks] at member
    by_cases same : k = i
    · rw [if_pos same] at member
      cases member
    · rw [if_neg same] at member
      exact ⟨same, member⟩
  have entries (e a : Nat) (other : e ≠ i) (member : a ∈ ((fs.unlinked i d addr now).itable e).entries) :
      a ∈ (fs.itable e).entries := by
    rwa [A1fsInode.entries, (extents e other).blocks] at member
  refine ⟨orderly.inodeBits, fun b bound => ?_, by rw [mode]; exact orderly.root, fun k live => ?_,
    fun k live => ?_, fun k b member => ?_, ?_, fun k b member => ?_, fun e live dir => ?_,
    fun e e' a a' j live live' dir dir' member member' target other number number' => ?_⟩
  · change b / 8 < (fs.blockBits.flipAll (fs.itable i).blocks).length
    rw [Bitmap.flipAll_length]
    exact orderly.blockBits b bound
  · obtain ⟨other, live⟩ := alive k live
    rw [(extents k other).lastUsedExtent]
    exact orderly.last k live
  · obtain ⟨other, live⟩ := alive k live
    exact (extents k other).counted (orderly.counted k live)
  · exact orderly.inside k b (owned k b member).2
  · apply orderly.exclusive.drop (i := i)
    · rw [blocks, if_pos rfl]
    · intro k other
      rw [blocks, if_neg other]
  · obtain ⟨other, member⟩ := owned k b member
    change (fs.blockBits.flipAll (fs.itable i).blocks).test b = true
    rw [← FsCtx.liveBlocks_of_live names.live,
      Bitmap.test_flipAll_of_not_mem fun mine => orderly.exclusive.apart k i other member mine]
    exact orderly.marked k b member
  · obtain ⟨other, live⟩ := alive e live
    rw [mode] at dir
    exact unlinked_slots orderly names holds live dir other
  · obtain ⟨other1, live⟩ := alive e live
    obtain ⟨other2, live'⟩ := alive e' live'
    rw [mode] at dir dir'
    have member := entries e a other1 member
    have member' := entries e' a' other2 member'
    exact orderly.once e e' a a' j live live' dir dir' member member' (alive j target).2 other
      (unlinked_number orderly names holds live member number)
      (unlinked_number orderly names holds live' member' number')

theorem unlinked_passes {e j : Nat} {token : List Byte} (passes : fs.Passes e token j) (noNul : 0#8 ∉ token)
    (some : token ≠ []) (differ : j ≠ i) : (fs.unlinked i d addr now).Passes e token j := by
  have other := names.apart passes
  obtain ⟨alive, dir, look⟩ := passes
  have live : (fs.unlinked i d addr now).live e = true := by rwa [FsCtx.unlinked_live other]
  have extents : (fs.itable e).SameExtents ((fs.unlinked i d addr now).itable e) :=
    FsCtx.unlinked_extents (names.apart holds.passes) other
  apply FsCtx.Passes.keeps orderly ⟨alive, dir, look⟩ noNul some live
    (unlinked_slots orderly names holds alive dir other) extents rfl rfl
  intro a member
  rcases unlinked_slot orderly holds alive member with ⟨rfl, rfl⟩ | bytes
  · refine .inr ⟨fun ⟨_, named⟩ => ?_, fun ⟨used, _⟩ => ?_⟩
    · have listed := (orderly.slots e alive dir).listed
      have entry : fs.Entry e token i := listed.entry_iff.mpr ⟨a, member, holds.number, named⟩
      obtain ⟨-, same⟩ := inodeLookup_ok look
      rw [listed.entryNamed_eq some entry] at same
      omega
    · rw [(unlinked_cleared orderly names holds).free] at used
      cases used
  · exact .inl bytes

variable {q : CString} {j e b : Nat} {last : List Byte}

theorem unlinked_walk {tokens : List (List Byte)} (walk : Walk fs.Passes 0 tokens e)
    (proper : ∀ token ∈ tokens, 0#8 ∉ token ∧ token ≠ []) (other : e ≠ i) :
    Walk (fs.unlinked i d addr now).Passes 0 tokens e := by
  apply walk.imp (P := fun k => k ≠ i) other (fun k token j passes => names.apart passes)
  intro k token j member passes differ
  obtain ⟨noNul, some⟩ := proper token member
  exact unlinked_passes orderly names holds passes noNul some differ

theorem FsCtx.NamesFile.unlinked (other : fs.NamesFile q j) (differ : j ≠ i) :
    (fs.unlinked i d addr now).NamesFile q j := by
  refine ⟨?_, by rw [FsCtx.unlinked_live differ]; exact other.live, ?_⟩
  · exact unlinked_walk orderly names holds other.walk
      (fun token member => ⟨token_noNul member, (mem_strtok member).1⟩) differ
  · rw [FsCtx.unlinked_mode (names.apart holds.passes)]
    exact other.regular

theorem FsCtx.HoldsName.unlinked (other : fs.HoldsName q j e b last) (differ : j ≠ i) :
    (fs.unlinked i d addr now).HoldsName q j e b last := by
  have away := names.apart other.passes
  have kept : fs.SameEntry (fs.unlinked i d addr now) b := by
    rcases unlinked_slot orderly holds other.passes.1 other.member with ⟨-, rfl⟩ | bytes
    · have number := holds.number
      rw [other.number] at number
      omega
    · exact bytes
  have extents : (fs.itable e).SameExtents ((fs.unlinked i d addr now).itable e) :=
    FsCtx.unlinked_extents (names.apart holds.passes) away
  obtain ⟨tokens, split, walk⟩ := other.before
  have proper (token : List Byte) (member : token ∈ strtok q.bytes) : 0#8 ∉ token ∧ token ≠ [] :=
    ⟨token_noNul member, (mem_strtok member).1⟩
  have final : last ∈ strtok q.bytes := by
    rw [split]
    simp
  refine ⟨⟨tokens, split, unlinked_walk orderly names holds walk (fun token member => ?_) away⟩, ?_, ?_, ?_, ?_⟩
  · apply proper
    rw [split]
    exact List.mem_append_left _ member
  · exact unlinked_passes orderly names holds other.passes (proper last final).1 (proper last final).2 differ
  · rw [A1fsInode.entries, extents.blocks]
    exact other.member
  · rw [kept.dentryIno]
    exact other.number
  · exact kept.named.mpr other.named

end Preserve

end ExtentFs
