import ExtentFs.Effects.Remove
import ExtentFs.Model.System

namespace ExtentFs

open Base

def Call.newMode : Call → Option (BitVec 32)
  | .create _ mode => some mode
  | .mkdir _ mode => some (mode ||| sIfdir)
  | _ => none

def Call.resizeTo (inode : A1fsInode) : Call → Option Int
  | .truncate _ size => some size
  | .write _ buf offset =>
    if offset + buf.length > inode.size then some (buf.length + offset : Nat) else none
  | _ => none

def Call.freedBlocks (inode : A1fsInode) : Call → List Nat
  | .unlink _ => inode.blocks
  | _ => []

/-- `a1fs_unlink` frees the extents before slot `k` and then finds the first bit of the next
    one clear. -/
def StopsAt (fs : FsCtx) (ino k : Nat) : Prop :=
  k ∈ (fs.itable ino).usedSlots ∧
    (fs.blockBits.flipAll ((fs.itable ino).slotBlocks (List.range k))).test
      ((fs.itable ino).iExtent k).start = false

/-- The slot at which `a1fs_unlink` gives up. -/
def StopsFirst (fs : FsCtx) (ino k : Nat) : Prop :=
  StopsAt fs ino k ∧ ∀ k' < k, ¬ StopsAt fs ino k'

instance (fs : FsCtx) (ino k : Nat) : Decidable (StopsAt fs ino k) :=
  inferInstanceAs (Decidable (_ ∧ _))

instance (fs : FsCtx) (ino k : Nat) : Decidable (StopsFirst fs ino k) :=
  inferInstanceAs (Decidable (_ ∧ _))

theorem range_split {m k : Nat} {visited rest : List Nat}
    (split : List.range m = visited ++ rest) (next : rest.head? = some k) :
    visited = List.range k ∧ k ∈ List.range m := by
  obtain ⟨rest', rfl⟩ : ∃ rest', rest = k :: rest' := by
    cases rest with
    | nil => cases next
    | cons _ rest' =>
      cases next
      exact ⟨rest', rfl⟩
  have short : visited.length < m := by
    have total := congrArg List.length split
    simp only [List.length_range, List.length_append, List.length_cons] at total
    omega
  have index : visited.length = k := by
    have at_ := congrArg (fun l => l[visited.length]?) split
    simpa [short] using at_
  have taken := congrArg (List.take visited.length) split
  rw [List.take_left, List.take_range, index] at taken
  rw [← taken, ← index, Nat.min_eq_left (by omega)]
  exact ⟨rfl, List.mem_range.mpr short⟩

theorem range_cons_split {m k : Nat} (below : k < m) :
    ∃ after, List.range m = List.range k ++ k :: after := by
  obtain ⟨r, rfl⟩ : ∃ r, m = k + (1 + r) := ⟨m - k - 1, by omega⟩
  rw [List.range_add, List.range_add, List.map_append]
  exact ⟨_, rfl⟩

theorem slotBlocks_sublist {inode : A1fsInode} {k : Nat} (slot : k ∈ inode.usedSlots) :
    (inode.slotBlocks (List.range k)).Sublist inode.blocks := by
  obtain ⟨after, split⟩ := range_cons_split (List.mem_range.mp slot)
  rw [A1fsInode.blocks, A1fsInode.slotBlocks, A1fsInode.usedSlots, split, List.flatMap_append]
  exact List.sublist_append_left _ _

theorem passes_of_marked {fs : FsCtx} {ino m : Nat} (marked : ∀ before k after,
    List.range m = before ++ k :: after →
      (fs.blockBits.flipAll ((fs.itable ino).slotBlocks before)).test
        ((fs.itable ino).iExtent k).start = true) : ∀ k < m, ¬ StopsAt fs ino k := by
  intro k below ⟨_, clear⟩
  obtain ⟨after, split⟩ := range_cons_split below
  rw [marked _ _ _ split] at clear
  cases clear

/-- What the common end of `a1fs_rmdir` and `a1fs_unlink` does to an inode and its entry. -/
inductive Removed (fs : FsCtx) (path : CString) (ino : Nat) (now : Timespec) (fs' : FsCtx) : Prop
  | unmarked (clear : fs.inodeBits.test ino = false)
      (result : fs' = fs.setInode ino (resetInode (fs.itable ino) now))
  | dropped (marked : fs.inodeBits.test ino = true) (result : fs' = fs.dropInode ino now)
  | cleared {p addr : Nat} {dirs : Int} (marked : fs.inodeBits.test ino = true)
      (walk : getInodeNum (fs.dropInode ino now) path 1 = .ok (p : Int))
      (inside : (p : Int) < fs.sb.sbInodesCount)
      (search : (fs.dropInode ino now).findIno ((fs.dropInode ino now).itable p) ino = .ok (some addr))
      (result : fs' = clearDentry (fs.dropInode ino now) p addr dirs now)

/-- What a call that returns has done. -/
inductive Effect (fs : FsCtx) (env : Env) (call : Call) (fs' : FsCtx) : Prop
  | unchanged (same : fs' = fs)
  | taken {ino : Nat} {mode : BitVec 32} (new : call.newMode = some mode)
      (free : getAvailableBit fs.sb fs.inodeBits .inode (-1) = .ok (ino : Int))
      (result : fs' = fs.takeInode ino mode env.now)
  | entered {ino p addr : Nat} {mode : BitVec 32} {fs1 : FsCtx} (new : call.newMode = some mode)
      (free : getAvailableBit fs.sb fs.inodeBits .inode (-1) = .ok (ino : Int))
      (walk : getInodeNum (fs.takeInode ino mode env.now) call.path 1 = .ok (p : Int))
      (inside : (p : Int) < fs.sb.sbInodesCount)
      (added : (fs.takeInode ino mode env.now).MayAdd p env.now
        ((fs.takeInode ino mode env.now).findIno ((fs.takeInode ino mode env.now).itable p) (-1) =
          .ok none) fs1)
      (search : fs1.findIno (fs1.itable p) (-1) = .ok (some addr))
      (result : writeDentry fs1 p ino (strrchr call.path.bytes) addr env.now = .ok fs')
  | resized {i : Nat} {size : Int} (walk : getInodeNum fs call.path 0 = .ok (i : Int))
      (inside : (i : Int) < fs.sb.sbInodesCount) (asked : call.resizeTo (fs.itable i) = some size)
      (effect : Resized fs i size env.now fs')
  | written {i : Nat} (walk : getInodeNum fs call.path 0 = .ok (i : Int))
      (inside : (i : Int) < fs.sb.sbInodesCount) (touches : fs.Touches fs' i)
  | stopped {path : CString} {ino k : Nat} (unlinks : call = .unlink path)
      (walk : getInodeNum fs path 0 = .ok (ino : Int)) (inside : (ino : Int) < fs.sb.sbInodesCount)
      (stops : StopsFirst fs ino k)
      (result : fs' = fs.flipBlocks ((fs.itable ino).slotBlocks (List.range k)) 0)
  | removed {ino : Nat} (removes : (∃ path, call = .unlink path) ∨
        (∃ path, call = .rmdir path) ∧ (fs.itable ino).numEntries = 0)
      (walk : getInodeNum fs call.path 0 = .ok (ino : Int))
      (inside : (ino : Int) < fs.sb.sbInodesCount)
      (passes : ∀ path, call = .unlink path → ∀ k, ¬ StopsAt fs ino k)
      (bits : ∀ b ∈ call.freedBlocks (fs.itable ino), b / 8 < fs.blockBits.length)
      (effect : Removed (fs.flipBlocks (call.freedBlocks (fs.itable ino)) 0) call.path ino env.now fs')

variable {fs fs' : FsCtx} {env : Env} {call : Call} {fuel : Nat} {r : Int}

theorem newEntry_effect {mode : BitVec 32} {noParent : Int} (new : call.newMode = some mode)
    (h : newEntry env fs call.path mode noParent = .ok (fs', r)) : Effect fs env call fs' := by
  rcases newEntry_ok h with ⟨-, same, -⟩ | ⟨ino, free, _, rfl, ⟨-, result, -⟩ |
    ⟨p, walk, inside, added, add, -⟩⟩
  · exact .unchanged same
  · exact .taken new free result
  · rcases addDentry_ok add with ⟨-, result, -⟩ | ⟨-, fs1, addr, added, search, write⟩
    · exact .taken new free result
    · exact .entered new free walk inside added search write

theorem removeEntry_removed {path : CString} {ino : Nat} {dirs : Int}
    (h : removeEntry env fs path ino dirs = .ok (fs', r)) : Removed fs path ino env.now fs' := by
  rcases removeEntry_ok h with ⟨clear, -, result⟩ | ⟨marked, _, rfl, ⟨-, result, -⟩ |
    ⟨p, addr, walk, inside, search, -, result⟩⟩
  · exact .unmarked clear result
  · exact .dropped marked result
  · exact .cleared marked walk inside search result

theorem Call.newMode_cases {mode : BitVec 32} (new : call.newMode = some mode) :
    (∃ path, call = .create path mode) ∨ ∃ path bits, call = .mkdir path bits := by
  cases call with
  | create path bits =>
    cases new
    exact .inl ⟨path, rfl⟩
  | mkdir path bits => exact .inr ⟨path, bits, rfl⟩
  | unlink path => cases new
  | rmdir path => cases new
  | truncate path size => cases new
  | write path buf offset => cases new

theorem a1fsCreate_ok {path : CString} {mode : BitVec 32} : a1fsCreate env fs path mode = .ok (fs', r) ↔
    sIsreg mode = true ∧ newEntry env fs path mode (-env.errno) = .ok (fs', r) := by
  rw [a1fsCreate, guard_eq_ok]

theorem Call.exec_effect (range : (fs.sb.sbFirstEmptyDb : Int) ≤ fs.sb.maxIndex)
    (h : call.exec env fuel fs = .ok (fs', r)) : Effect fs env call fs' := by
  cases call with
  | create path mode =>
    have new : (Call.create path mode).newMode = some mode := rfl
    exact newEntry_effect new (a1fsCreate_ok.mp h).2
  | mkdir path mode =>
    have new : (Call.mkdir path mode).newMode = some (mode ||| sIfdir) := rfl
    exact newEntry_effect new h
  | unlink path =>
    obtain ⟨ino, walk, inside, visited, rest, slots, marked, _, rfl, bits, ⟨done, remove⟩ |
      ⟨-, result, k, next, clear⟩⟩ := a1fsUnlink_ok h
    · subst done
      rw [List.append_nil] at slots
      rw [← slots] at bits remove marked
      have none : ∀ k, ¬ StopsAt fs ino k := fun k stops =>
        passes_of_marked marked k (List.mem_range.mp stops.1) stops
      exact .removed (.inl ⟨path, rfl⟩) walk inside (fun _ _ => none) bits (removeEntry_removed remove)
    · obtain ⟨rfl, slot⟩ := range_split slots next
      exact .stopped rfl walk inside ⟨⟨slot, clear⟩, passes_of_marked marked⟩ result
  | rmdir path =>
    obtain ⟨ino, walk, inside, ⟨-, same, -⟩ | ⟨none, remove⟩⟩ := a1fsRmdir_ok h
    · exact .unchanged same
    · refine .removed (.inr ⟨⟨path, rfl⟩, none⟩) walk inside (fun _ unlinks => by cases unlinks)
        (by simp [Call.freedBlocks]) ?_
      have nothing : Call.freedBlocks (fs.itable ino) (.rmdir path) = [] := rfl
      rw [nothing, FsCtx.flipBlocks_nil]
      exact removeEntry_removed remove
  | truncate path size =>
    obtain ⟨i, walk, inside, resized⟩ := a1fsTruncate_resized range h
    exact .resized walk inside rfl resized
  | write path buf offset =>
    rcases a1fsWrite_resized range h with same | ⟨i, walk, inside, touches | ⟨beyond, resized⟩⟩
    · exact .unchanged same
    · exact .written walk inside touches
    · exact .resized walk inside (if_pos beyond) resized

end ExtentFs
