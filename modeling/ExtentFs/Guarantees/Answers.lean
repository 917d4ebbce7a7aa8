import ExtentFs.Guarantees.Attributes
import ExtentFs.Guarantees.FiniteMap

namespace ExtentFs

open Base

/-- The directory of a path has a free entry. -/
def FsCtx.HasEntry (fs : FsCtx) (path : CString) : Prop :=
  ∀ p ∈ fs.parent path, ∃ a ∈ (fs.itable p).entries, fs.dentryIno a = -1

/-- The requests on names, under the assumptions of their callbacks, and those that cut a file. A name is only
    added where there is an entry for it. -/
def Answerable (fs : FsCtx) : Request → Prop
  | .statfs _ => True
  | .getattr path | .utimens path _ => WellShaped path ∧ (fs.parent path).isSome
  | .readdir path => IsDirectory fs path
  | .read _ _ _ => False
  | .change (.create path mode) => Creatable fs path ∧ sIsreg mode ∧ fs.HasEntry path
  | .change (.mkdir path mode) => Documented fs (.mkdir path mode) ∧ fs.HasEntry path
  | .change (.unlink path) => IsFile fs path
  | .change (.rmdir path) => IsDirectory fs path ∧ strtok path.bytes ≠ []
  | .change (.truncate path size) =>
    IsFile fs path ∧ 0 ≤ size ∧ ∀ i ∈ fs.resolve path, size ≤ (fs.itable i).size
  | .change (.write _ _ _) => False

/-- A file is made as a regular one. -/
def Call.MakesRegular : Call → Prop
  | .create _ mode => sIsreg mode = true
  | .mkdir _ _ | .unlink _ | .rmdir _ | .truncate _ _ | .write _ _ _ => True

instance : (call : Call) → Decidable call.MakesRegular
  | .create _ mode => inferInstanceAs (Decidable (sIsreg mode = true))
  | .mkdir _ _ | .unlink _ | .rmdir _ | .truncate _ _ | .write _ _ _ => .isTrue trivial

section Bits

variable {inode : A1fsInode} {sb : A1fsSuperblock} {bits : Bitmap}

theorem freeExtents_answers {l : List Nat} (slots : ∀ k ∈ l, k < 12 ∧ 0 < (inode.iExtent k).count)
    (inside : ∀ b ∈ inode.slotBlocks l, b / 8 < bits.length) :
    ∃ sb' bits' freed, freeExtents inode l sb bits = .ok (sb', bits', freed) := by
  induction l generalizing sb bits with
  | nil => exact ⟨sb, bits, true, rfl⟩
  | cons k l ih =>
    rw [A1fsInode.slotBlocks_cons] at inside
    obtain ⟨below, some⟩ := slots k (by simp)
    have first : (inode.iExtent k).start ∈ (inode.iExtent k).blocks :=
      A1fsExtent.mem_blocks.mpr ⟨le_refl _, by omega⟩
    have read : inode.extentAt k = .ok (inode.iExtent k) := if_pos below
    rw [freeExtents, read, ok_bind,
      checkBitUsage_ok.mpr ⟨inside _ (List.mem_append_left _ first), rfl⟩, ok_bind]
    split
    · have flip : setBits sb bits (inode.iExtent k).start .data (inode.iExtent k).count 0 = .ok
          ({ sb with sbFreeBlocksCount := countFlips 0 sb.sbFreeBlocksCount (inode.iExtent k).count },
            bits.flipAll (inode.iExtent k).blocks) :=
        setBits_data_ok.mpr ⟨fun b member => inside b (List.mem_append_left _ member), rfl, rfl⟩
      rw [flip, ok_bind]
      refine ih (fun k member => slots k (by simp [member])) fun b member => ?_
      rw [Bitmap.flipAll_length]
      exact inside b (List.mem_append_right _ member)
    · exact ⟨sb, bits, false, rfl⟩

theorem releaseBlocks_answers {l : List Nat} {n : Int} (inside : ∀ b ∈ l, b / 8 < bits.length) :
    ∃ out, releaseBlocks sb bits l n = .ok out := by
  induction l generalizing sb bits n with
  | nil => exact ⟨_, rfl⟩
  | cons b l ih =>
    rw [releaseBlocks]
    split
    · exact ⟨_, rfl⟩
    · have flip : setBits sb bits b .data 1 0 = .ok
          ({ sb with sbFreeBlocksCount := countFlips 0 sb.sbFreeBlocksCount 1 }, bits.flipAll [b]) :=
        setBits_data_ok.mpr ⟨fun j member => inside j (by simp_all), rfl, rfl⟩
      rw [flip, ok_bind]
      refine ih fun b member => ?_
      rw [Bitmap.flipAll_length]
      exact inside b (List.mem_cons_of_mem _ member)

theorem releaseExtents_answers {l : List Nat} {n : Int} (slots : ∀ k ∈ l, k < 12)
    (inside : ∀ k ∈ l, ∀ b ∈ (inode.iExtent k).blocks, b / 8 < bits.length) :
    ∃ out, releaseExtents inode sb bits l n = .ok out := by
  induction l generalizing sb bits n with
  | nil => exact ⟨_, rfl⟩
  | cons k l ih =>
    rw [releaseExtents]
    split
    · exact ⟨_, rfl⟩
    · have read : inode.extentAt k = .ok (inode.iExtent k) := if_pos (slots k (by simp))
      obtain ⟨⟨sb1, bits1, n1⟩, release⟩ : ∃ out, releaseBlocks sb bits
          (List.range' (inode.iExtent k).start (inode.iExtent k).count).reverse n = .ok out :=
        releaseBlocks_answers fun b member => inside k (by simp) b (List.mem_reverse.mp member)
      obtain ⟨-, rfl, -, -⟩ := releaseBlocks_ok release
      rw [read, ok_bind, release, ok_bind]
      refine ih (fun k member => slots k (by simp [member])) fun k member b block => ?_
      rw [Bitmap.flipAll_length]
      exact inside k (by simp [member]) b block

theorem availableInode_answers {room i : Nat} (inside : ∀ j, j < i + room → j / 8 < bits.length) :
    ∃ r, availableInode bits room i = .ok r := by
  induction room generalizing i with
  | zero => exact ⟨-1, rfl⟩
  | succ room ih =>
    rw [availableInode, checkBitUsage_ok.mpr ⟨inside i (by omega), rfl⟩, ok_bind]
    split
    · exact ih fun j below => inside j (by omega)
    · exact ⟨i, rfl⟩

theorem Steady.inodeBits {fs : FsCtx} (steady : Steady fs) {i : Nat} (inside : (i : Int) < fs.sb.sbInodesCount) :
    i / 8 < fs.inodeBits.length := by
  have few := steady.shaped.fewInodes
  rw [steady.shaped.marks]
  omega

theorem Steady.availableInode {fs : FsCtx} (steady : Steady fs) :
    ∃ r, getAvailableBit fs.sb fs.inodeBits .inode (-1) = .ok r := by
  rw [getAvailableBit]
  split
  · exact ⟨-1, rfl⟩
  · split
    · exact ⟨-1, rfl⟩
    · exact availableInode_answers fun j below => steady.inodeBits (by omega)

end Bits

section Names

variable {fs : FsCtx} {path : CString} {i p ino : Nat} {name : List Byte} {now : Timespec} {dirs : Int} (env : Env)

theorem Tree.parent_leads (tree : Tree fs) (steady : Steady fs) (shaped : WellShaped path)
    (parent : (fs.parent path).isSome) :
    ∃ r, getInodeNum fs path 0 = .ok r ∧ (r < 0 ∨ ∃ j : Nat, r = j ∧ (j : Int) < fs.sb.sbInodesCount) := by
  obtain ⟨d, parent⟩ := Option.isSome_iff_exists.mp parent
  obtain ⟨leads, dir⟩ := (tree.parent_iff steady shaped).mp parent
  obtain ⟨-, r, number, outcome⟩ :=
    tree.getInodeNum_leads steady (.inl fun token member => (shaped.proper member).2.2) leads dir
  refine ⟨r, number, ?_⟩
  rcases outcome with ⟨j, walk, rfl⟩ | ⟨-, negative⟩
  · exact .inr ⟨j, rfl, (live_iff.mp (tree.alive_of_walk walk)).1⟩
  · exact .inl negative

theorem a1fsGetattr_answers (tree : Tree fs) (steady : Steady fs) (shaped : WellShaped path)
    (parent : (fs.parent path).isSome) : ∃ r st, a1fsGetattr fs path = .ok (r, st) := by
  obtain ⟨r, number, outcome⟩ := tree.parent_leads steady shaped parent
  have short := shaped.2.2.1
  rw [a1fsGetattr, if_neg (by omega), if_neg (not_not.mpr shaped.1), number, ok_bind]
  rcases outcome with negative | ⟨j, rfl, inside⟩
  · rw [if_pos negative]
    exact ⟨_, _, rfl⟩
  · have read : fs.inodeAt (j : Int) = .ok (fs.itable j) := inodeAt_ok.mpr ⟨⟨by omega, inside⟩, rfl⟩
    rw [if_neg (by omega), read]
    exact ⟨_, _, rfl⟩

theorem a1fsUtimens_answers (tree : Tree fs) (steady : Steady fs) (shaped : WellShaped path)
    (parent : (fs.parent path).isSome) (times : Timespec × Timespec) :
    ∃ fs' r, a1fsUtimens env fs path times = .ok (fs', r) := by
  obtain ⟨r, number, outcome⟩ := tree.parent_leads steady shaped parent
  rw [a1fsUtimens, number, ok_bind]
  rcases outcome with negative | ⟨j, rfl, inside⟩
  · rw [if_pos negative]
    exact ⟨_, _, rfl⟩
  · have read : fs.inodeAt (j : Int) = .ok (fs.itable j) := inodeAt_ok.mpr ⟨⟨by omega, inside⟩, rfl⟩
    rw [if_neg (by omega), read]
    exact ⟨_, _, rfl⟩

/-- The walks of the other names go on while an inode that has none below it is given up. -/
theorem Tree.dropInode_parent (tree : Tree fs) (steady : Steady fs) (shaped : WellShaped path)
    (split : strtok path.bytes = (strtok path.bytes).dropLast ++ [strrchr path.bytes])
    (walk : Walk fs.Edge 0 (strtok path.bytes).dropLast p) (childless : ∀ name j, ¬ fs.Edge ino name j) :
    getInodeNum (fs.dropInode ino now) path 1 = .ok (p : Int) := by
  have kept (j : Nat) (other : j ≠ ino) : (fs.dropInode ino now).itable j = fs.itable j :=
    FsCtx.setInode_other other
  have same (d : Nat) (other : d ≠ ino) : fs.SameDirectory (fs.dropInode ino now) d :=
    .of_blocks (by rw [kept d other]) (.refl (l := [])) (List.disjoint_nil_right _)
  have edge (d : Nat) (other : d ≠ ino) (name : List Byte) (j : Nat) :
      (fs.dropInode ino now).Edge d name j ↔ fs.Edge d name j :=
    (same d other).edge (by rw [kept d other]) (tree.listed d)
  have unused : ((fs.dropInode ino now).itable ino).lastUsedExtent = -1 := by
    change ((fs.setInode ino _).itable ino).lastUsedExtent = -1
    rw [FsCtx.setInode_self]
    rfl
  have none : ((fs.dropInode ino now).itable ino).blocks = [] := A1fsInode.blocks_of_empty unused
  have closed : (fs.dropInode ino now).Closed fun d => (d : Int) < fs.sb.sbInodesCount := by
    refine ⟨fun d name j passes _ => ?_, fun d _ dir => tree.dropInode_closed.listed d trivial dir⟩
    by_cases own : d = ino
    · rw [own] at passes
      exact absurd passes (no_edge none)
    · exact (live_iff.mp (tree.linked d name j ((edge d own name j).mp passes)).1).1
  have readable (d : Nat) : (fs.dropInode ino now).Readable ((fs.dropInode ino now).itable d) := by
    by_cases own : d = ino
    · rw [own]
      refine ⟨by omega, fun b member => ?_⟩
      rw [none] at member
      cases member
    · rw [kept d own]
      have before := tree.readable steady d
      exact ⟨before.slots, before.inside⟩
  have proper (token : List Byte) (member : token ∈ strtok path.bytes) := shaped.proper member
  have walk' : Walk (fs.dropInode ino now).Edge 0 (strtok path.bytes).dropLast p := by
    apply walk.mono
    intro d name j old
    have other : d ≠ ino := by
      rintro rfl
      exact childless _ _ old
    exact (edge d other name j).mpr old
  obtain ⟨par, walked⟩ : ∃ par', walkTokens (fs.dropInode ino now)
      ((strtok path.bytes).dropLast ++ [strrchr path.bytes]) 0 0 =
        walkTokens (fs.dropInode ino now) [strrchr path.bytes] par' p := by
    refine walkTokens_returns closed ?_ walk' (fun token member => ?_) fun d inside => ⟨inside, readable d⟩
    · exact (live_iff.mp tree.root.1).1
    · exact (proper token (List.mem_of_mem_dropLast member)).2
  have last : strrchr path.bytes ∈ strtok path.bytes := by
    rw [split]
    simp
  have alive := (live_iff.mp (tree.alive_of_walk walk)).1
  have inside : (p : Int) < (fs.dropInode ino now).sb.sbInodesCount := alive
  have look := inodeLookup_returns inside (readable p) (proper _ last).2.2
  rw [getInodeNum, split, walked, walkTokens, if_pos (by omega), look]
  rfl

theorem removeEntry_answers (tree : Tree fs) (steady : Steady fs) (shaped : WellShaped path)
    (some : strtok path.bytes ≠ []) (walk : Walk fs.Edge 0 (strtok path.bytes).dropLast p)
    (edge : fs.Edge p (strrchr path.bytes) ino) (childless : ∀ name j, ¬ fs.Edge ino name j) :
    ∃ fs', removeEntry env fs path ino dirs = .ok (fs', 0) := by
  have differ : p ≠ ino := by
    rintro rfl
    exact childless _ _ edge
  have kept : (fs.dropInode ino env.now).itable p = fs.itable p := FsCtx.setInode_other differ
  obtain ⟨inside, marked⟩ := live_iff.mp (tree.linked _ _ _ edge).1
  have parent : getInodeNum (fs.dropInode ino env.now) path 1 = .ok (p : Int) :=
    tree.dropInode_parent steady shaped (strtok_strrchr shaped some) walk childless
  obtain ⟨a, member, number, -⟩ := (tree.listed p edge.1).entry_iff.mp edge.2
  have before := tree.readable steady p
  have readable : (fs.dropInode ino env.now).Readable ((fs.dropInode ino env.now).itable p) := by
    rw [kept]
    exact ⟨before.slots, before.inside⟩
  obtain ⟨addr, found⟩ : ∃ addr, ((fs.dropInode ino env.now).itable p).entries.find?
      (fun a => (fs.dropInode ino env.now).dentryIno a = ino) = Option.some addr := by
    rw [← Option.isSome_iff_exists, List.find?_isSome, kept]
    exact ⟨a, member, decide_eq_true number⟩
  have range := (live_iff.mp (tree.alive_of_walk walk)).1
  have search := (findIno_eq readable).trans (congrArg _ found)
  exact ⟨_, removeEntry_returns (steady.inodeBits inside) marked range parent search⟩

theorem Tree.covered (tree : Tree fs) (steady : Steady fs) {b : Nat} (member : b ∈ (fs.itable i).blocks) :
    b / 8 < fs.blockBits.length := by
  have inside := (tree.inside i b member).1
  have covered := steady.shaped.covered
  omega

theorem a1fsUnlink_answers (tree : Tree fs) (steady : Steady fs) (file : IsFile fs path) :
    ∃ fs' r, a1fsUnlink env fs path = .ok (fs', r) := by
  obtain ⟨i, found, regular, alive, other, p, walk, edge⟩ := tree.file file
  have some : strtok path.bytes ≠ [] := by
    intro none
    have root := tree.walk_of_resolve found
    rw [none] at root
    exact other (Walk.nil_iff.mp root)
  have range := (live_iff.mp alive).1
  have read : fs.inodeAt (i : Int) = .ok (fs.itable i) := inodeAt_ok.mpr ⟨⟨by omega, range⟩, rfl⟩
  have covered := steady.shaped.covered
  have last := (steady.sane i).high
  have removes (bits : List Nat) : ∃ fs', removeEntry env (fs.flipBlocks bits 0) path i 0 = .ok (fs', 0) := by
    have flipped : Tree (fs.flipBlocks bits 0) := tree.flipBlocks
    exact removeEntry_answers env flipped steady.release file.1 some walk edge fun _ _ => no_edge_of_file regular
  obtain ⟨sb', bits', freed, free⟩ : ∃ sb' bits' freed,
      freeExtents (fs.itable i) (fs.itable i).usedSlots fs.sb fs.blockBits = .ok (sb', bits', freed) := by
    refine freeExtents_answers (fun k slot => ?_) fun b member => tree.covered steady member
    have within := A1fsInode.mem_usedSlots.mp slot
    exact ⟨by omega, (tree.files i regular).counted k slot⟩
  rw [a1fsUnlink, getInodeNum_of_resolve found, ok_bind, read, ok_bind, Int.toNat_natCast]
  dsimp only
  split
  · rw [free, ok_bind]
    obtain ⟨visited, rest, -, -, -, rfl, rfl, -, -⟩ := freeExtents_ok free
    cases freed with
    | true =>
      obtain ⟨fs', returned⟩ := removes ((fs.itable i).slotBlocks visited)
      exact ⟨fs', 0, returned⟩
    | false => exact ⟨_, _, rfl⟩
  · obtain ⟨fs', returned⟩ := removes []
    rw [FsCtx.flipBlocks_nil] at returned
    exact ⟨fs', 0, returned⟩

theorem a1fsRmdir_answers (tree : Tree fs) (steady : Steady fs) (directory : IsDirectory fs path)
    (some : strtok path.bytes ≠ []) : ∃ fs' r, a1fsRmdir env fs path = .ok (fs', r) := by
  obtain ⟨shaped, i, found, dir⟩ := directory
  have walk := tree.walk_of_resolve found
  rw [strtok_strrchr shaped some] at walk
  obtain ⟨p, before, edge⟩ := Walk.concat_iff.mp walk
  have range := (live_iff.mp (tree.linked _ _ _ edge).1).1
  have read : fs.inodeAt (i : Int) = .ok (fs.itable i) := inodeAt_ok.mpr ⟨⟨by omega, range⟩, rfl⟩
  rw [a1fsRmdir, getInodeNum_of_resolve found, ok_bind, read, ok_bind, Int.toNat_natCast]
  by_cases used : (fs.itable i).numEntries > 0
  · rw [if_pos used]
    exact ⟨_, _, rfl⟩
  · rw [if_neg used]
    have none : (fs.itable i).numEntries = 0 := by omega
    obtain ⟨fs', returned⟩ : ∃ fs', removeEntry env fs path i 1 = .ok (fs', 0) :=
      removeEntry_answers env tree steady shaped some before edge fun _ _ => tree.no_edge_of_empty none
    exact ⟨fs', 0, returned⟩

/-- Only the root has a path without components. -/
theorem Tree.tokens_of_rmdir (tree : Tree fs) (directory : IsDirectory fs path)
    (keepsRoot : OnRmdir fs (.rmdir path) fun i => i ≠ 0) : strtok path.bytes ≠ [] := by
  obtain ⟨shaped, i, found, dir⟩ := directory
  have other := keepsRoot.holds (getInodeNum_of_resolve found)
  intro none
  have walk := tree.walk_of_resolve found
  rw [none] at walk
  exact other (Walk.nil_iff.mp walk)

theorem a1fsReaddir_answers (tree : Tree fs) (steady : Steady fs) (blank : fs.AllBlank)
    (directory : IsDirectory fs path) : ∃ r names, a1fsReaddir env fs path = .ok (r, names) := by
  obtain ⟨shaped, d, found, dir⟩ := directory
  have alive := tree.alive_of_walk (tree.walk_of_resolve found)
  exact ⟨_, _, a1fsReaddir_names (tree.listed d dir) (tree.readable steady d) (blank d dir) (live_iff.mp alive).1
    shaped.1 (getInodeNum_of_resolve found)⟩

/-- A file is cut without a search for blocks. -/
theorem a1fsTruncate_answers (tree : Tree fs) (steady : Steady fs) (file : IsFile fs path) {size : Int}
    (fuel : Nat) (low : 0 ≤ size) (cut : ∀ i ∈ fs.resolve path, size ≤ (fs.itable i).size) :
    ∃ fs' r, a1fsTruncate env fuel fs path size = .ok (fs', r) := by
  obtain ⟨i, found, regular, alive, -⟩ := tree.file file
  have range := (live_iff.mp alive).1
  have read : fs.inodeAt (i : Int) = .ok (fs.itable i) := inodeAt_ok.mpr ⟨⟨by omega, range⟩, rfl⟩
  have measured := tree.files i regular
  have fits := measured.fits
  have below := cut i found
  have current : toInt (fs.itable i).size = (fs.itable i).size := toInt_size fits
  rw [a1fsTruncate, getInodeNum_of_resolve found, ok_bind, read, ok_bind, current]
  dsimp only
  by_cases same : ((fs.itable i).size : Int) = size
  · rw [if_pos same]
    exact ⟨_, _, rfl⟩
  · have used : (fs.itable i).lastUsedExtent ≠ -1 := by
      intro unused
      have zero := measured.blank unused
      omega
    have last := (steady.sane i).high
    have bounds (n : Int) (low : 0 ≤ n) (high : n < 2 ^ 31) : 0 ≤ sizeBlocks n ∧ sizeBlocks n ≤ 2 ^ 19 := by
      rw [sizeBlocks, Int.tdiv_eq_ediv_of_nonneg low, toInt_of_fits (by omega) (by omega)]
      split <;> omega
    have before := bounds (fs.itable i).size (by omega) (by omega)
    have after := bounds size low (by omega)
    obtain ⟨⟨sb, bits⟩, release⟩ : ∃ out, releaseExtents (fs.itable i) fs.sb fs.blockBits
        (fs.itable i).usedSlots.reverse (sizeBlocks (fs.itable i).size - sizeBlocks size) = .ok out := by
      refine releaseExtents_answers (fun k slot => ?_) fun k slot b block => ?_
      · have within := A1fsInode.mem_usedSlots.mp (List.mem_reverse.mp slot)
        omega
      · exact tree.covered steady (A1fsInode.mem_blocks.mpr ⟨k, List.mem_reverse.mp slot, block⟩)
    rw [if_neg same, if_neg used, if_neg (by omega), Int.toNat_natCast, shrinkFile, current,
      intArith_ok.mpr ⟨by omega, rfl⟩, ok_bind, release]
    exact ⟨_, _, rfl⟩

theorem Creatable.name_short (creatable : Creatable fs path) : (strrchr path.bytes).length < a1fsNameMax := by
  have last : strrchr path.bytes ∈ strtok path.bytes := by
    rw [strtok_strrchr creatable.1 creatable.2.1]
    simp
  exact (creatable.1.proper last).2.2

/-- A call that adds a name finds the directory for it. -/
theorem Tree.finds_parent (tree : Tree fs) (steady : Steady fs) (creatable : Creatable fs path) (mode : BitVec 32)
    (now : Timespec) (free : getAvailableBit fs.sb fs.inodeBits .inode (-1) = .ok (ino : Int)) :
    ∃ p : Nat, getInodeNum (fs.takeInode ino mode now) path 1 = .ok (p : Int) ∧ (p : Int) < fs.sb.sbInodesCount ∧
      fs.parent path = some p ∧ (fs.takeInode ino mode now).itable p = fs.itable p ∧
      (fs.takeInode ino mode now).Readable ((fs.takeInode ino mode now).itable p) := by
  obtain ⟨p, walk, parent, dir, alive, split, absent⟩ := tree.parent_of_creatable creatable
  obtain ⟨inside, clear⟩ := getAvailableBit_free free
  have taken : Tree (fs.takeInode ino mode now) := tree.takeInode clear inside
  have edges := tree.takeInode_edge clear mode now
  have walk' : Walk (fs.takeInode ino mode now).Edge 0 (strtok path.bytes).dropLast p :=
    walk.mono fun d name j edge => (edges d name j).mpr edge
  obtain ⟨differ, alive'⟩ : p ≠ ino ∧ (fs.takeInode ino mode now).live p = true := takeInode_live clear alive
  have kept : (fs.takeInode ino mode now).itable p = fs.itable p := FsCtx.setInode_other differ
  have dir' : sIsdir ((fs.takeInode ino mode now).itable p).mode = true := by rwa [kept]
  have short (token : List Byte) (member : token ∈ strtok path.bytes) : token.length < a1fsNameMax :=
    (creatable.1.proper member).2.2
  obtain ⟨number, -⟩ := taken.getInodeNum_leads steady.takeInode (.inl short) walk' dir'
  exact ⟨p, number, (live_iff.mp alive).1, parent, kept, taken.readable steady.takeInode p⟩

/-- It finds the free entry there. -/
theorem Tree.finds_entry (tree : Tree fs) (steady : Steady fs) (creatable : Creatable fs path)
    (has : fs.HasEntry path) {mode : BitVec 32}
    (free : getAvailableBit fs.sb fs.inodeBits .inode (-1) = .ok (ino : Int))
    (number : getInodeNum (fs.takeInode ino mode now) path 1 = .ok (p : Int)) :
    ∃ addr, (fs.takeInode ino mode now).findIno ((fs.takeInode ino mode now).itable p) (-1) = .ok (Option.some addr) ∧
      addr + 256 ≤ fs.dataSize := by
  obtain ⟨q, number', -, parent, kept, readable⟩ := tree.finds_parent steady creatable mode now free
  obtain rfl : q = p := by
    have same := Except.ok.inj (number'.symm.trans number)
    omega
  obtain ⟨a, member, unused⟩ := has q parent
  obtain ⟨addr, found⟩ : ∃ addr, ((fs.takeInode ino mode now).itable q).entries.find?
      (fun a => (fs.takeInode ino mode now).dentryIno a = -1) = Option.some addr := by
    rw [← Option.isSome_iff_exists, List.find?_isSome, kept]
    exact ⟨a, member, decide_eq_true unused⟩
  exact ⟨addr, (findIno_eq readable).trans (congrArg _ found), readable.entry (List.mem_of_find?_eq_some found)⟩

/-- A new inode is taken if there is one, and its name added to the directory. -/
theorem newEntry_answers (tree : Tree fs) (steady : Steady fs) (creatable : Creatable fs path) (mode : BitVec 32)
    (noParent : Int) (adds : ∀ ino p : Nat, getAvailableBit fs.sb fs.inodeBits .inode (-1) = .ok (ino : Int) →
      getInodeNum (fs.takeInode ino mode env.now) path 1 = .ok (p : Int) →
      ∃ fs' r, addDentry (fs.takeInode ino mode env.now) p ino (strrchr path.bytes) env.now = .ok (fs', r)) :
    ∃ fs' r, newEntry env fs path mode noParent = .ok (fs', r) ∧
      (fs' = fs ∨ ∃ ino : Nat, getAvailableBit fs.sb fs.inodeBits .inode (-1) = .ok (ino : Int)) := by
  obtain ⟨index, free⟩ := steady.availableInode
  rw [newEntry, free, ok_bind]
  by_cases none : index = -1
  · rw [if_pos none]
    exact ⟨fs, _, rfl, .inl rfl⟩
  · obtain ⟨ino, rfl, inside, -, room⟩ := (getAvailableBit_inode free).resolve_left none
    obtain ⟨p, number, range, -⟩ := tree.finds_parent steady creatable mode env.now free
    obtain ⟨fs', added, outcome⟩ := adds ino p free number
    have take : setBits fs.sb fs.inodeBits ino .inode (-1) 1 =
        .ok ((fs.takeInode ino mode env.now).sb, (fs.takeInode ino mode env.now).inodeBits) :=
      setBits_inode_ok.mpr ⟨room, rfl, rfl⟩
    have read : (fs.takeInode ino mode env.now).inodeAt p = .ok ((fs.takeInode ino mode env.now).itable p) :=
      inodeAt_ok.mpr ⟨⟨by omega, range⟩, rfl⟩
    have answer : ∃ r, (if added < 0 then pure (fs', -(env.errno : Int)) else pure (fs', 0) :
        Checked (FsCtx × Int)) = .ok (fs', r) := by
      split
      · exact ⟨_, rfl⟩
      · exact ⟨_, rfl⟩
    obtain ⟨r, answer⟩ := answer
    refine ⟨fs', r, ?_, .inr ⟨ino, rfl⟩⟩
    rw [if_neg none]
    dsimp only
    rw [Int.toNat_natCast, take, ok_bind]
    change (getInodeNum (fs.takeInode ino mode env.now) path 1 >>= _) = _
    rw [number, ok_bind, if_neg (by omega)]
    change ((fs.takeInode ino mode env.now).inodeAt p >>= _) = _
    rw [read, ok_bind]
    change (addDentry (fs.takeInode ino mode env.now) p ino (strrchr path.bytes) env.now >>= _) = _
    rw [outcome, ok_bind]
    exact answer

end Names

section Entries

variable {fs fs' : FsCtx} {p ino first : Nat} {name : List Byte} {now : Timespec}

theorem freeDentries_returns {l : List Nat} (inside : ∀ k ∈ l, 4096 * first + k + 256 ≤ fs.dataSize)
    (near : 4096 * first < 2 ^ 31) : ∃ fs', l.foldlM (fun fs k => freeDentry fs first k) fs = .ok fs' := by
  induction l generalizing fs with
  | nil => exact ⟨fs, rfl⟩
  | cons k l ih =>
    have offset : FsCtx.blockOffset first = .ok (4096 * (first : Int)) :=
      blockOffset_ok.mpr ⟨⟨by omega, by omega⟩, rfl⟩
    have fits := inside k (by simp)
    rw [List.foldlM_cons, freeDentry, FsCtx.dentryAddr, offset, ok_bind, if_pos (by omega), ok_bind]
    exact ih fun k member => inside k (by simp [member])

theorem placeExtent_returns {index : Nat} (slot : index < 12) (inside : 4096 * first + 4096 ≤ fs.dataSize)
    (near : 4096 * first < 2 ^ 31) :
    ∃ fs', placeExtent fs p index first 1 true .directory now = .ok (fs', first) := by
  have set : setDbExtent (fs.itable p) index first 1 true now =
      .ok { (fs.itable p).setExtent index ⟨first, 1, 0⟩ with iMtime := now } := by
    rw [setDbExtent, A1fsInode.extentAt, if_pos slot, ok_bind]
    rfl
  have start : (((fs.itable p).setExtent index ⟨first, 1, 0⟩).iExtent index).start = first := by
    rw [A1fsInode.setExtent_self]
  obtain ⟨fs', freed⟩ : ∃ fs', (List.range' 0 16 256).foldlM (fun fs k => freeDentry fs first k)
      (fs.setInode p { (fs.itable p).setExtent index ⟨first, 1, 0⟩ with iMtime := now }) = .ok fs' := by
    refine freeDentries_returns (fun k member => ?_) near
    rw [List.mem_range'] at member
    rw [FsCtx.setInode_dataSize]
    omega
  refine ⟨fs', ?_⟩
  rw [placeExtent, setDirbExtent, set, ok_bind]
  dsimp only
  rw [start, freed]
  rfl

theorem makeDentryBlock_returns (steady : Steady fs) (found : fs.HasBlock) (starts : fs.StartsExtent p 1)
    (slot : (fs.itable p).lastUsedExtent < 11) : ∃ fs', makeDentryBlock fs p now = .ok (fs', 0) := by
  obtain ⟨first, search, inside, near⟩ := found
  have low := (steady.sane p).low
  have whole := steady.shaped.whole
  have covered := steady.shaped.covered
  have fits (index : Int) : 4096 * first + 4096 ≤ (setLastUsedExtent fs p index).dataSize := by
    show 4096 * first + 4096 ≤ fs.dataSize
    omega
  obtain ⟨fs1, block, allocate⟩ : ∃ fs1 block, allocateDataBlks fs p first 1 .directory now = .ok (fs1, block) := by
    rw [allocateDataBlks]
    by_cases unused : (fs.itable p).lastUsedExtent = -1
    · obtain ⟨fs1, placed⟩ : ∃ fs1, placeExtent (setLastUsedExtent fs p 0) p 0 first 1 true .directory now =
          .ok (fs1, first) := placeExtent_returns (by omega) (fits _) near
      rw [if_pos unused]
      exact ⟨fs1, first, placed⟩
    · obtain ⟨index, after, answer⟩ := starts.resolve_left unused
      obtain ⟨-, -, -, rfl, -, -⟩ := attachable_ok answer
      obtain ⟨fs1, placed⟩ : ∃ fs1, placeExtent
          (setLastUsedExtent fs p ((fs.itable p).lastUsedExtent.toNat + 1 : Nat)) p
            ((fs.itable p).lastUsedExtent.toNat + 1) first 1 true .directory now = .ok (fs1, first) :=
        placeExtent_returns (by omega) (fits _) near
      rw [if_neg unused, answer, ok_bind]
      exact ⟨fs1, first, placed⟩
  obtain ⟨inode, growth, rfl, -⟩ := allocateDataBlks_ok search allocate
  obtain rfl : block = first := by
    cases growth with
    | append found' =>
      have same := Except.ok.inj (found'.symm.trans search)
      omega
    | attach _ taken =>
      rw [starts.attaches] at taken
      cases taken
  obtain ⟨⟨sb, bits⟩, set⟩ : ∃ out, setBits (fs.grown p inode .directory).sb
      (fs.grown p inode .directory).blockBits block .data 1 1 = .ok out := by
    refine ⟨(_, _), setBits_data_ok.mpr ⟨fun j member => ?_, rfl, rfl⟩⟩
    rw [List.mem_range'_1] at member
    rw [grown_blockBits]
    omega
  rw [makeDentryBlock, search, ok_bind, if_neg (by omega), Int.toNat_natCast, allocate, ok_bind]
  dsimp only
  rw [set]
  exact ⟨_, rfl⟩

theorem FsCtx.AddsBlock.readable (added : fs.AddsBlock p now fs') (steady : Steady fs)
    (fresh : fs.attaches p 1 = false) (readable : fs.Readable (fs.itable p)) : fs'.Readable (fs'.itable p) := by
  obtain ⟨block, inode, growth, ⟨below, near⟩, rfl⟩ := steady.addsBlock_inside fresh added
  have whole := steady.shaped.whole
  have sizes : ((fs.grown p inode .directory).flipBlocks [block] 1).dataSize = fs.dataSize := rfl
  have table : ((fs.grown p inode .directory).flipBlocks [block] 1).itable p = inode := if_pos rfl
  rw [table]
  refine ⟨growth.last.2, fun b member => ?_⟩
  rw [growth.blocks, List.mem_append, List.mem_range'_1] at member
  rw [sizes]
  rcases member with old | new
  · exact readable.inside b old
  · omega

/-- A directory block is found where one is needed, or there is none. -/
theorem addDentry_returns (steady : Steady fs) (readable : fs.Readable (fs.itable p))
    (short : name.length < a1fsNameMax)
    (room : fs.findIno (fs.itable p) (-1) = .ok none →
      fs.NoBlock ∨ fs.HasBlock ∧ fs.StartsExtent p 1 ∧ (fs.itable p).lastUsedExtent < 11) :
    ∃ fs' r, addDentry fs p ino name now = .ok (fs', r) := by
  obtain ⟨result, search⟩ : ∃ result, fs.findIno (fs.itable p) (-1) = .ok result := ⟨_, findIno_eq readable⟩
  cases result with
  | some addr =>
    have member := List.mem_of_find?_eq_some (findIno_ok search).symm
    obtain ⟨fs', -, added⟩ := addDentry_free ino now search (readable.entry member) short
    exact ⟨fs', 0, added⟩
  | none =>
    rcases room search with ⟨a, negative, free⟩ | ⟨found, starts, slot⟩
    · have made : makeDentryBlock fs p now = .ok (fs, -1) := by
        rw [makeDentryBlock, free, ok_bind, if_pos negative]
        rfl
      rw [addDentry]
      by_cases unused : (fs.itable p).lastUsedExtent = -1
      · rw [if_pos unused, made]
        exact ⟨_, _, rfl⟩
      · rw [if_neg unused, pure_bind]
        dsimp only
        rw [if_neg (by omega), search, ok_bind, if_pos rfl, made]
        exact ⟨_, _, rfl⟩
    · obtain ⟨fs1, made⟩ : ∃ fs1, makeDentryBlock fs p now = .ok (fs1, 0) :=
        makeDentryBlock_returns steady found starts slot
      have added : fs.AddsBlock p now fs1 := by
        rcases makeDentryBlock_ok made with ⟨-, code, -⟩ | ⟨-, added⟩
        · cases code
        · exact added
      have readable' := added.readable steady starts.attaches readable
      obtain ⟨addr, search'⟩ : ∃ addr, fs1.findIno (fs1.itable p) (-1) = .ok (some addr) := by
        cases answer : (fs1.itable p).entries.find? fun a => fs1.dentryIno a = -1 with
        | some addr => exact ⟨addr, (findIno_eq readable').trans (congrArg _ answer)⟩
        | none => exact absurd ((findIno_eq readable').trans (congrArg _ answer)) added.free
      have member := List.mem_of_find?_eq_some (findIno_ok search').symm
      obtain ⟨fs', written, -⟩ := addDentry_free ino now search' (readable'.entry member) short
      refine ⟨fs', 0, ?_⟩
      rw [addDentry]
      by_cases unused : (fs.itable p).lastUsedExtent = -1
      · rw [if_pos unused, made, ok_bind]
        dsimp only
        rw [if_neg (by omega), search', ok_bind, if_neg (by simp), pure_bind]
        dsimp only
        rw [if_neg (by omega), search', ok_bind]
        dsimp only
        rw [written]
        rfl
      · rw [if_neg unused, pure_bind]
        dsimp only
        rw [if_neg (by omega), search, ok_bind, if_pos rfl, made, ok_bind]
        dsimp only
        rw [if_neg (by omega), search', ok_bind]
        dsimp only
        rw [written]
        rfl

end Entries

section Runs

variable {fs : FsCtx} {call : Call} {env : Env} {ino : Nat} {mode : BitVec 32} {path : CString} {r : Int}

theorem Tree.onEntry_found (tree : Tree fs) (steady : Steady fs) (creatable : Creatable fs call.path)
    (has : fs.HasEntry call.path) (free : getAvailableBit fs.sb fs.inodeBits .inode (-1) = .ok (ino : Int))
    (P : FsCtx → Nat → Prop) :
    OnEntry fs env call fun fs _ p => fs.findIno (fs.itable p) (-1) = .ok none → P fs p := by
  intro mode new index again q walk full
  obtain rfl : (ino : Int) = index := Except.ok.inj (free.symm.trans again)
  rw [Int.toNat_natCast] at walk full
  obtain ⟨p, number, -⟩ := tree.finds_parent steady creatable mode env.now free
  obtain rfl : (p : Int) = q := Except.ok.inj (number.symm.trans walk)
  obtain ⟨addr, search, -⟩ := tree.finds_entry steady creatable has free number
  rw [Int.toNat_natCast, search] at full
  cases full

theorem Tree.keeps_new (tree : Tree fs) (steady : Steady fs) (documented : Documented fs call)
    (creatable : Creatable fs call.path) (has : fs.HasEntry call.path) (new : call.newMode = some mode)
    (free : getAvailableBit fs.sb fs.inodeBits .inode (-1) = .ok (ino : Int)) :
    KeepsBlank fs ⟨call, env, r⟩ := by
  have found (P : FsCtx → Nat → Prop) : OnEntry fs env call fun fs _ p =>
      fs.findIno (fs.itable p) (-1) = .ok none → P fs p := tree.onEntry_found steady creatable has free P
  cases call with
  | create path mode | mkdir path mode =>
    have findsSlot : FindsSlot fs ⟨_, env, r⟩ :=
      ⟨fun _ _ _ none => (by cases none), found fun fs p => fs.RoomForBlock p⟩
    exact ⟨⟨documented, findsSlot, trivial, fun _ _ _ none => (by cases none), found _, trivial⟩,
      found fun fs _ => fs.FindsBlank⟩
  | unlink | rmdir | truncate | write => cases new

theorem findsSlot_remove (resizes : ∀ inode, call.resizeTo inode = none) (new : call.newMode = none) :
    FindsSlot fs ⟨call, env, r⟩ := by
  constructor
  · intro i _ size asked
    rw [resizes] at asked
    cases asked
  · intro mode made
    dsimp only at made
    rw [new] at made
    cases made

theorem keeps_unlink (file : IsFile fs path) : KeepsBlank fs ⟨.unlink path, env, r⟩ :=
  ⟨⟨file, findsSlot_remove (fun _ => rfl) rfl, trivial, fun _ _ _ none => (by cases none),
    fun _ none => (by cases none), trivial⟩, fun _ none => by cases none⟩

theorem Tree.keeps_rmdir (tree : Tree fs) (directory : IsDirectory fs path) (some : strtok path.bytes ≠ []) :
    KeepsBlank fs ⟨.rmdir path, env, r⟩ := by
  have keepsRoot : OnRmdir fs (.rmdir path) fun i => i ≠ 0 := by
    intro i number
    obtain ⟨shaped, j, found, -⟩ := directory
    have same := tree.resolves found number
    have walk := tree.walk_of_resolve found
    rw [strtok_strrchr shaped some] at walk
    obtain ⟨p, -, edge⟩ := Walk.concat_iff.mp walk
    have other := (tree.linked _ _ _ edge).2
    omega
  exact ⟨⟨directory, findsSlot_remove (fun _ => rfl) rfl, keepsRoot, fun _ _ _ none => (by cases none),
    fun _ none => (by cases none), trivial⟩, fun _ none => by cases none⟩

theorem grows_nothing {i : Nat} : fs.GrowsInto i 0 := by
  refine ⟨?_, fun start found low b member => ?_⟩
  · rw [FsCtx.attaches]
    split
    · rename_i attach index after answer
      obtain ⟨-, -, -, -, -, same⟩ := attachable_ok answer
      exact same
    · rfl
  · cases member

theorem Tree.keeps_cut (tree : Tree fs) (file : IsFile fs path) {size : Int} (low : 0 ≤ size)
    (cut : ∀ i ∈ fs.resolve path, size ≤ (fs.itable i).size) : KeepsBlank fs ⟨.truncate path size, env, r⟩ := by
  obtain ⟨i, found, regular, -⟩ := tree.file file
  have measured := tree.files i regular
  have fits := measured.fits
  have below := cut i found
  have none : helperSize (fs.itable i) size = none := by
    rw [helperSize, toInt_size fits]
    by_cases same : ((fs.itable i).size : Int) = size
    · exact if_pos same
    · have used : (fs.itable i).lastUsedExtent ≠ -1 := by
        intro unused
        have zero := measured.blank unused
        omega
      exact (if_neg same).trans ((if_neg used).trans (if_neg (by omega)))
  have resizes : OnResize fs (.truncate path size) fun i size =>
      0 ≤ size ∧ size < 2 ^ 31 ∧ fs.GrowsInto i (growthBlocks (fs.itable i) size) := by
    intro j number asked new
    have same := tree.resolves found number
    subst same
    cases new
    rw [Int.toNat_natCast]
    refine ⟨low, by omega, ?_⟩
    rw [growthBlocks, none]
    exact grows_nothing
  have findsSlot : FindsSlot fs ⟨.truncate path size, env, r⟩ := by
    refine ⟨?_, fun _ new => by cases new⟩
    intro j number asked new bytes helped
    have same := tree.resolves found number
    subst same
    cases new
    rw [Int.toNat_natCast, none] at helped
    cases helped
  exact ⟨⟨file, findsSlot, trivial, resizes, fun _ none => (by cases none), trivial⟩, fun _ none => by cases none⟩

/-- An answerable request is answered, and what it calls is tidy. -/
theorem Tree.answers (tree : Tree fs) (env : Env) (steady : Steady fs) (blank : fs.AllBlank) {request : Request}
    (asked : Answerable fs request) : ∃ fs' reply, driver.Step fs ⟨request, env, reply⟩ fs' ∧
      (fs' = fs ∨ ∀ event ∈ Exchange.event ⟨request, env, reply⟩, KeepsBlank fs event) := by
  have adds {path : CString} (creatable : Creatable fs path) (has : fs.HasEntry path) (mode : BitVec 32) (ino p : Nat)
      (free : getAvailableBit fs.sb fs.inodeBits .inode (-1) = .ok (ino : Int))
      (number : getInodeNum (fs.takeInode ino mode env.now) path 1 = .ok (p : Int)) :
      ∃ fs' r, addDentry (fs.takeInode ino mode env.now) p ino (strrchr path.bytes) env.now = .ok (fs', r) := by
    obtain ⟨addr, search, fits⟩ := tree.finds_entry steady creatable has free number
    obtain ⟨fs', -, added⟩ := addDentry_free ino env.now search fits creatable.name_short
    exact ⟨fs', 0, added⟩
  have serves {call : Call} {fs' : FsCtx} {r : Int} (returned : call.exec env 0 fs = .ok (fs', r)) :
      driver.Step fs ⟨.change call, env, .status r⟩ fs' := by
    have step : a1fs.Step fs ⟨call, env, r⟩ fs' := ⟨0, returned⟩
    exact Event.serves step
  have keeps {call : Call} {r : Int} (kept : KeepsBlank fs ⟨call, env, r⟩) :
      ∀ event ∈ Exchange.event ⟨.change call, env, .status r⟩, KeepsBlank fs event := by
    rintro event made
    cases made
    exact kept
  cases request with
  | statfs path => exact ⟨fs, _, ⟨0, rfl⟩, .inl rfl⟩
  | getattr path =>
    obtain ⟨r, st, answer⟩ := a1fsGetattr_answers tree steady asked.1 asked.2
    refine ⟨fs, .getattr r st, ⟨0, ?_⟩, .inl rfl⟩
    rw [Request.serve, answer]
    rfl
  | readdir path =>
    obtain ⟨r, names, answer⟩ := a1fsReaddir_answers env tree steady blank asked
    refine ⟨fs, .readdir r names, ⟨0, ?_⟩, .inl rfl⟩
    rw [Request.serve, answer]
    rfl
  | read path size offset => exact asked.elim
  | utimens path times =>
    obtain ⟨fs', r, answer⟩ := a1fsUtimens_answers env tree steady asked.1 asked.2 times
    refine ⟨fs', .status r, ⟨0, ?_⟩, .inr fun event made => by cases made⟩
    rw [Request.serve, answer]
    rfl
  | change call =>
    cases call with
    | create path mode =>
      obtain ⟨creatable, regular, has⟩ := asked
      obtain ⟨fs', r, returned, same | ⟨ino, free⟩⟩ :=
        newEntry_answers env tree steady creatable mode (-env.errno) (adds creatable has mode)
      · exact ⟨fs', _, serves ((if_pos regular).trans returned), .inl same⟩
      · have documented : Documented fs (.create path mode) := creatable
        have kept : KeepsBlank fs ⟨.create path mode, env, r⟩ :=
          tree.keeps_new steady documented creatable has rfl free
        exact ⟨fs', _, serves ((if_pos regular).trans returned), .inr (keeps kept)⟩
    | mkdir path mode =>
      obtain ⟨documented, has⟩ := asked
      obtain ⟨fs', r, returned, same | ⟨ino, free⟩⟩ :=
        newEntry_answers env tree steady documented.1 (mode ||| sIfdir) (-eNoEnt) (adds documented.1 has _)
      · exact ⟨fs', _, serves returned, .inl same⟩
      · have kept : KeepsBlank fs ⟨.mkdir path mode, env, r⟩ :=
          tree.keeps_new steady documented documented.1 has rfl free
        exact ⟨fs', _, serves returned, .inr (keeps kept)⟩
    | unlink path =>
      obtain ⟨fs', r, returned⟩ := a1fsUnlink_answers env tree steady asked
      exact ⟨fs', _, serves returned, .inr (keeps (keeps_unlink asked))⟩
    | rmdir path =>
      obtain ⟨fs', r, returned⟩ := a1fsRmdir_answers env tree steady asked.1 asked.2
      exact ⟨fs', _, serves returned, .inr (keeps (tree.keeps_rmdir asked.1 asked.2))⟩
    | truncate path size =>
      obtain ⟨file, low, cut⟩ := asked
      obtain ⟨fs', r, returned⟩ := a1fsTruncate_answers env tree steady file 0 low cut
      exact ⟨fs', _, serves returned, .inr (keeps (tree.keeps_cut file low cut))⟩
    | write path buf offset => exact asked.elim

/-- No request on names, and none that cuts a file, gets stuck: as long as directories get blocks in which
    all names are empty, each one that meets its assumptions is answered, without an access outside the
    image, and the run can go on. -/
theorem requests_answered (run : driver.Reaches (fun s x => ∀ event ∈ x.event, KeepsBlank s event) fs)
    (env : Env) {request : Request} (asked : Answerable fs request) :
    ∃ fs' reply, driver.Step fs ⟨request, env, reply⟩ fs' ∧
      driver.Reaches (fun s x => ∀ event ∈ x.event, KeepsBlank s event) fs' := by
  obtain ⟨steady, tree⟩ := tree_of_driver run fun s x keeps event made => (keeps event made).sound
  obtain ⟨fs', reply, step, same | kept⟩ := tree.answers env steady (blank_of_driver run).1 asked
  · exact ⟨fs', reply, step, same ▸ run⟩
  · exact ⟨fs', reply, step, .step run kept step⟩

theorem requests_answered_run : ∃ fs, blankRun = some fs ∧
    ∃ fs' reply, driver.Step fs ⟨.change (.unlink pathBC), quiet, reply⟩ fs' ∧
      driver.Reaches (fun s x => ∀ event ∈ x.event, KeepsBlank s event) fs' := by
  have returns : ∃ fs ∈ blankRun, IsFile fs pathBC := by decide +kernel
  obtain ⟨fs, run, file⟩ := returns
  have reached := driver_of_calls (runCalls_reaches (.initial device_initial) run)
  have asked : Answerable fs (.change (.unlink pathBC)) := file
  exact ⟨fs, run, requests_answered reached quiet asked⟩

end Runs

end ExtentFs
