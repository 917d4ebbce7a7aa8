import ExtentFs.Effects.Directory
import ExtentFs.Effects.Truncate

namespace ExtentFs

open Base Base.Bytes

namespace FsCtx

def takeInode (fs : FsCtx) (i : Nat) (mode : BitVec 32) (now : Timespec) : FsCtx :=
  { fs.setInode i (createInode (fs.itable i) mode now) with
    inodeBits := fs.inodeBits.flip i
    sb := { fs.sb with sbFreeInodesCount := fs.sb.sbFreeInodesCount - 1 } }

def dropInode (fs : FsCtx) (i : Nat) (now : Timespec) : FsCtx :=
  { fs.setInode i (resetInode (fs.itable i) now) with
    inodeBits := fs.inodeBits.flip i
    sb := { fs.sb with sbFreeInodesCount := fs.sb.sbFreeInodesCount + 1 } }

def creditBlock (fs : FsCtx) : FsCtx :=
  { fs with sb := { fs.sb with sbFreeBlocksCount := fs.sb.sbFreeBlocksCount + 1 } }

end FsCtx

section Entry

variable {fs fs' : FsCtx} {i ino : Nat} {now : Timespec} {name : List Byte} {r : Int} {env : Env}

def enteredDir (dir : A1fsInode) (now : Timespec) : A1fsInode :=
  { dir with
    links := 2
    size := (dir.size + 1) % 2 ^ 64
    iMtime := now
    numEntries := (dir.numEntries + 1) % 2 ^ 32 }

theorem writeDentry_ok {addr : Nat} (h : writeDentry fs i ino name addr now = .ok fs') :
    addr + 4 + (name.length + 1) ≤ fs.dataSize ∧
      fs' = { fs.setInode i (enteredDir (fs.itable i) now) with
        sb := { fs.sb with sbUsedDirsCount := fs.sb.sbUsedDirsCount + 1 }
        data := (fs.data.store (addr + 4) (name ++ [0#8])).set32 addr (BitVec.ofNat 32 ino) } := by
  rw [writeDentry, bind_eq_ok] at h
  obtain ⟨stored, store, h⟩ := h
  obtain ⟨inside, rfl⟩ := storeBytes_ok.mp store
  cases h
  rw [List.length_append, List.length_singleton] at inside
  have addrEq : ((addr : Int) + 4).toNat = addr + 4 := by omega
  exact ⟨by omega, by rw [addrEq]; rfl⟩

theorem writeDentry_touches {addr : Nat} (h : writeDentry fs i ino name addr now = .ok fs') :
    fs.Touches fs' i := by
  obtain ⟨-, rfl⟩ := writeDentry_ok h
  have header : fs.Touches (fs.setInode i (enteredDir (fs.itable i) now)) i :=
    .setInode ⟨rfl, rfl, rfl, fun _ => rfl, fun _ => rfl⟩
  exact ⟨rfl, rfl, rfl, rfl, header.others, header.inode⟩

theorem writeFree_ok {fs1 : FsCtx} (free : fs1.findIno (fs1.itable i) (-1) ≠ .ok none)
    (h : (do
      match ← fs1.findIno (fs1.itable i) (-1) with
      | some addr => return (← writeDentry fs1 i ino name addr now, 0)
      | none => return (fs1, -1) : Checked (FsCtx × Int)) = .ok (fs', r)) :
    r = 0 ∧ ∃ addr, fs1.findIno (fs1.itable i) (-1) = .ok (some addr) ∧
      writeDentry fs1 i ino name addr now = .ok fs' := by
  rw [bind_eq_ok] at h
  obtain ⟨found, search, h⟩ := h
  cases found with
  | none => exact absurd search free
  | some addr =>
    dsimp only at h
    rw [bind_eq_ok] at h
    obtain ⟨written, write, h⟩ := h
    cases h
    exact ⟨rfl, addr, search, write⟩

/-- `add_dentry` needs a block when the directory has no free entry. It finds none and changes
    nothing, or writes the first free entry. -/
theorem addDentry_ok (h : addDentry fs i ino name now = .ok (fs', r)) :
    (r = -1 ∧ fs' = fs ∧ fs.findIno (fs.itable i) (-1) = .ok none ∧ fs.NoBlock) ∨
    (r = 0 ∧ ∃ fs1 addr, fs.MayAdd i now (fs.findIno (fs.itable i) (-1) = .ok none) fs1 ∧
      fs1.findIno (fs1.itable i) (-1) = .ok (some addr) ∧
      writeDentry fs1 i ino name addr now = .ok fs') := by
  unfold addDentry at h
  split at h
  · rename_i unused
    have none : fs.findIno (fs.itable i) (-1) = .ok none := by
      simp [FsCtx.findIno, FsCtx.scanDentries, A1fsInode.usedSlots, unused]
      rfl
    rw [bind_eq_ok] at h
    obtain ⟨⟨made, code⟩, make, h⟩ := h
    rcases makeDentryBlock_ok make with ⟨rfl, rfl, noBlock⟩ | ⟨rfl, added⟩
    · cases h
      exact .inl ⟨rfl, rfl, none, noBlock⟩
    · have free := FsCtx.AddsBlock.free added
      dsimp only at h
      rw [if_neg (by omega), bind_eq_ok] at h
      obtain ⟨found, search, h⟩ := h
      split at h
      · rename_i full
        exact absurd (full ▸ search) free
      · obtain ⟨rfl, addr, search, write⟩ := writeFree_ok free h
        exact .inr ⟨rfl, made, addr, .inr ⟨none, added⟩, search, write⟩
  · rw [pure_bind] at h
    dsimp only at h
    rw [if_neg (by omega), bind_eq_ok] at h
    obtain ⟨found, search, h⟩ := h
    split at h
    · rename_i full
      subst full
      rw [bind_eq_ok] at h
      obtain ⟨⟨made, code⟩, make, h⟩ := h
      rcases makeDentryBlock_ok make with ⟨rfl, rfl, noBlock⟩ | ⟨rfl, added⟩
      · cases h
        exact .inl ⟨rfl, rfl, search, noBlock⟩
      · obtain ⟨rfl, addr, search', write⟩ := writeFree_ok (FsCtx.AddsBlock.free added) h
        exact .inr ⟨rfl, made, addr, .inr ⟨search, added⟩, search', write⟩
    · rename_i some
      have free : fs.findIno (fs.itable i) (-1) ≠ .ok none := by
        rw [search]
        intro same
        cases same
        exact some rfl
      obtain ⟨rfl, addr, search', write⟩ := writeFree_ok free h
      exact .inr ⟨rfl, fs, addr, .inl ⟨free, rfl⟩, search', write⟩

/-- The common body of `a1fs_create` and `a1fs_mkdir`. An inode that was taken stays taken
    when a later part fails. -/
theorem newEntry_ok {path : CString} {mode : BitVec 32} {noParent : Int}
    (h : newEntry env fs path mode noParent = .ok (fs', r)) :
    (r = -eNoSpc ∧ fs' = fs ∧ getAvailableBit fs.sb fs.inodeBits .inode (-1) = .ok (-1)) ∨
    ∃ ino : Nat, getAvailableBit fs.sb fs.inodeBits .inode (-1) = .ok (ino : Int) ∧
      ∃ fs1, fs1 = fs.takeInode ino mode env.now ∧
      ((r = noParent ∧ fs' = fs1 ∧ ∃ p < 0, getInodeNum fs1 path 1 = .ok p) ∨
      ∃ p : Nat, getInodeNum fs1 path 1 = .ok (p : Int) ∧ (p : Int) < fs.sb.sbInodesCount ∧
        ∃ added, addDentry fs1 p ino (strrchr path.bytes) env.now = .ok (fs', added) ∧
          r = if added < 0 then -(env.errno : Int) else 0) := by
  rw [newEntry, bind_eq_ok] at h
  obtain ⟨index, search, h⟩ := h
  split at h
  · rename_i none
    subst none
    cases h
    exact .inl ⟨rfl, rfl, search⟩
  · rename_i found
    obtain ⟨ino, rfl⟩ : ∃ ino : Nat, index = ino := by
      rcases getAvailableBit_inode search with none | ⟨ino, same, -⟩
      · exact absurd none found
      · exact ⟨ino, same⟩
    refine .inr ⟨ino, search, _, rfl, ?_⟩
    dsimp only at h
    rw [Int.toNat_natCast, bind_eq_ok] at h
    obtain ⟨⟨sb, bits⟩, set, h⟩ := h
    obtain ⟨-, rfl, rfl⟩ := setBits_inode_ok.mp set
    dsimp only at h
    rw [bind_eq_ok] at h
    obtain ⟨parent, walk, h⟩ := h
    split at h
    · rename_i missing
      cases h
      exact .inl ⟨rfl, rfl, parent, missing, walk⟩
    · rw [bind_eq_ok] at h
      obtain ⟨dir, read, h⟩ := h
      obtain ⟨inside, -⟩ := inodeAt_ok.mp read
      rw [bind_eq_ok] at h
      obtain ⟨⟨entered, added⟩, add, h⟩ := h
      obtain ⟨p, rfl⟩ : ∃ p : Nat, parent = p := ⟨parent.toNat, by omega⟩
      refine .inr ⟨p, walk, inside.2, ?_⟩
      dsimp only at h
      split at h
      · rename_i failed
        cases h
        exact ⟨added, add, by rw [if_pos failed]⟩
      · rename_i success
        cases h
        exact ⟨added, add, by rw [if_neg success]⟩

end Entry

end ExtentFs
