import ExtentFs.Effects.Read
import ExtentFs.Effects.Remove

namespace ExtentFs

open Base

/-- The failures that are accesses to `i_extent` outside the slots 0 to 11, and those through an
    index that was never set. -/
def Fault.OutsideSlots (fault : Fault) : Prop := fault = .badSlot ∨ fault = .uninitialized

instance (fault : Fault) : Decidable fault.OutsideSlots := inferInstanceAs (Decidable (_ ∨ _))

/-- A computation that uses no extent outside the slots. -/
abbrev InSlots {α : Type} (x : Checked α) : Prop := Avoids Fault.OutsideSlots x

/-- The loops over the used slots of every inode stay inside `i_extent`. -/
def FsCtx.Bounded (fs : FsCtx) : Prop := ∀ i, (fs.itable i).lastUsedExtent ≤ 11

section Bits

variable {sb : A1fsSuperblock} {bitmap : Bitmap}

theorem inSlots_guard {α : Type} {p : Prop} [Decidable p] {a : α} {e : Fault}
    (other : ¬ e.OutsideSlots) : InSlots (if p then .ok a else .error e) :=
  .ite (fun _ => .ok a) fun _ => .error other

theorem intArith_inSlots {x : Int} : InSlots (intArith x) := inSlots_guard (by decide)

theorem checkBitUsage_inSlots {i : Nat} : InSlots (checkBitUsage bitmap i) := inSlots_guard (by decide)

theorem flipDataBits_inSlots {flipType : Nat} {l : List Nat} :
    InSlots (flipDataBits sb bitmap flipType l) := by
  induction l generalizing sb bitmap with
  | nil => exact .ok _
  | cons i l ih =>
    rw [flipDataBits]
    exact .bind (inSlots_guard (by decide)) fun flipped _ => ih

theorem setBits_inSlots {i flipType : Nat} {bmType : BitmapType} {n : Int} :
    InSlots (setBits sb bitmap i bmType n flipType) := by
  cases bmType with
  | inode => exact .bind (inSlots_guard (by decide)) fun flipped _ => .ok _
  | data => exact flipDataBits_inSlots

theorem availableInode_inSlots {room i : Nat} : InSlots (availableInode bitmap room i) := by
  induction room generalizing i with
  | zero => exact .ok _
  | succ room ih =>
    rw [availableInode]
    exact .bind checkBitUsage_inSlots fun used _ => .ite (fun _ => ih) fun _ => .ok _

theorem firstFit_inSlots {n : Int} {room avail i count : Nat} :
    InSlots (firstFit bitmap n room avail i count) := by
  induction room generalizing avail i count with
  | zero => exact .ok _
  | succ room ih =>
    rw [firstFit]
    refine .ite (fun _ => .ok _) fun _ => ?_
    exact .bind checkBitUsage_inSlots fun used _ => .ite (fun _ => ih) fun _ => ih

theorem getAvailableBit_inSlots {bmType : BitmapType} {n : Int} :
    InSlots (getAvailableBit sb bitmap bmType n) := by
  unfold getAvailableBit
  refine .ite (fun _ => .ok _) fun _ => ?_
  cases bmType with
  | inode => exact .ite (fun _ => .ok _) fun _ => availableInode_inSlots
  | data => exact .bind firstFit_inSlots fun found _ => .ite (fun _ => .ok _) fun _ => .ok _

theorem anyInUse_inSlots {l : List Nat} : InSlots (anyInUse bitmap l) := by
  induction l with
  | nil => exact .ok _
  | cons i l ih =>
    rw [anyInUse]
    exact .bind checkBitUsage_inSlots fun used _ => .ite (fun _ => .ok _) fun _ => ih

end Bits

section Lookup

variable {fs : FsCtx} {dir : A1fsInode}

theorem extentAt_inSlots {i : Nat} (bound : i < 12) : InSlots (dir.extentAt i) := by
  rw [A1fsInode.extentAt, if_pos bound]
  exact .ok _

theorem usedSlot_inSlots (bound : dir.lastUsedExtent ≤ 11) {i : Nat} (used : i ∈ dir.usedSlots) :
    InSlots (dir.extentAt i) := by
  rw [A1fsInode.mem_usedSlots] at used
  exact extentAt_inSlots (by omega)

theorem strcmp_inSlots {addr : Nat} {token : List Byte} : InSlots (fs.strcmp addr token) := by
  induction token generalizing addr with
  | nil => exact .bind (inSlots_guard (by decide)) fun byte _ => .ok _
  | cons c token ih =>
    rw [FsCtx.strcmp]
    exact .bind (inSlots_guard (by decide)) fun byte _ => .ite (fun _ => ih) fun _ => .ok _

theorem dentryAddr_inSlots {j k : Nat} : InSlots (fs.dentryAddr j k) :=
  .bind intArith_inSlots fun offset _ => inSlots_guard (by decide)

theorem scanDentries_inSlots {β : Type} {body : Nat → Checked (Option β)}
    (bound : dir.lastUsedExtent ≤ 11) (inside : ∀ addr, InSlots (body addr)) :
    InSlots (fs.scanDentries dir body) := by
  refine Avoids.findSomeM? fun i used => ?_
  refine .bind (usedSlot_inSlots bound used) fun extent _ => ?_
  refine Avoids.findSomeM? fun j _ => Avoids.findSomeM? fun k _ => ?_
  exact .bind dentryAddr_inSlots fun addr _ => inside addr

theorem findIno_inSlots (bound : dir.lastUsedExtent ≤ 11) {ino : Int} : InSlots (fs.findIno dir ino) :=
  scanDentries_inSlots bound fun _ => .ok _

theorem inodeLookup_inSlots (bounded : fs.Bounded) {par : Int} {token : List Byte} :
    InSlots (inodeLookup fs par token) := by
  rw [inodeLookup]
  refine .ite (fun _ => .ok _) fun _ => ?_
  refine .bind (inSlots_guard (by decide)) fun dir found => ?_
  obtain ⟨-, rfl⟩ := inodeAt_ok.mp found
  refine .bind (scanDentries_inSlots (bounded _) fun addr => ?_) fun _ _ => .ok _
  exact .bind strcmp_inSlots fun same _ => .ite (fun _ => .ok _) fun _ => .ok _

theorem walkTokens_inSlots (bounded : fs.Bounded) {tokens : List (List Byte)} {par cur : Int} :
    InSlots (walkTokens fs tokens par cur) := by
  induction tokens generalizing par cur with
  | nil => exact .ok _
  | cons token tokens ih =>
    rw [walkTokens]
    exact .bind (inodeLookup_inSlots bounded) fun next _ => ih

theorem getInodeNum_inSlots (bounded : fs.Bounded) {path : CString} {tog : Nat} :
    InSlots (getInodeNum fs path tog) :=
  .bind (walkTokens_inSlots bounded) fun _ _ => .ok _

end Lookup

section Allocate

variable {fs : FsCtx} {i n start : Nat} {now : Timespec}

/-- The inode takes `n` more blocks without a thirteenth extent. -/
def FsCtx.RoomFor (fs : FsCtx) (i n : Nat) : Prop :=
  (fs.itable i).lastUsedExtent < 11 ∨ fs.attaches i n = true

instance : Decidable (fs.RoomFor i n) := inferInstanceAs (Decidable (_ ∨ _))

def A1fsInode.Direct (inode : A1fsInode) : Prop :=
  inode.lastUsedIndirect = -1 ∧ -1 ≤ inode.lastUsedExtent

theorem attachable_inSlots (bounded : fs.Bounded) (direct : (fs.itable i).Direct)
    (some : (fs.itable i).lastUsedExtent ≠ -1) : InSlots (attachable fs i n) := by
  have high := bounded i
  obtain ⟨indirect, low⟩ := direct
  rw [attachable, if_neg (by omega)]
  refine .bind (extentAt_inSlots (by omega)) fun last _ => ?_
  exact .bind anyInUse_inSlots fun used _ => .ok _

theorem setDbExtent_inSlots {inode : A1fsInode} {index : Nat} {new : Bool} (bound : index < 12) :
    InSlots (setDbExtent inode index start n new now) :=
  .bind (extentAt_inSlots bound) fun _ _ => .ok _

theorem placeExtent_inSlots {index : Nat} {new : Bool} {dbType : BlockType} (bound : index < 12) :
    InSlots (placeExtent fs i index start n new dbType now) := by
  cases dbType with
  | data => exact .bind (setDbExtent_inSlots bound) fun inode _ => .ok _
  | directory =>
    refine .bind ?_ fun placed _ => .ok _
    refine .bind (setDbExtent_inSlots bound) fun inode _ => ?_
    exact Avoids.foldlM fun fs k _ => .bind dentryAddr_inSlots fun addr _ => .ok _

theorem allocateDataBlks_inSlots {dbType : BlockType} (bounded : fs.Bounded)
    (direct : (fs.itable i).Direct) (room : fs.RoomFor i n) :
    InSlots (allocateDataBlks fs i start n dbType now) := by
  refine .ite (fun _ => placeExtent_inSlots (by omega)) fun some => ?_
  refine .bind (attachable_inSlots bounded direct some) fun found answer => ?_
  obtain ⟨attach, index, after⟩ := found
  obtain ⟨-, low, high, rfl, -, -⟩ := attachable_ok answer
  refine .ite (fun _ => placeExtent_inSlots (by omega)) fun fresh => placeExtent_inSlots ?_
  rcases room with below | taken
  · omega
  · rw [FsCtx.attaches, answer] at taken
    exact absurd taken fresh

/-- A free block has a slot to go to. -/
def FsCtx.RoomForBlock (fs : FsCtx) (i : Nat) : Prop :=
  Yields (getAvailableBit fs.sb fs.blockBits .data 1) fun block => 0 ≤ block → fs.RoomFor i 1

instance : Decidable (fs.RoomForBlock i) := inferInstanceAs (Decidable (Yields _ _))

theorem makeDentryBlock_inSlots (bounded : fs.Bounded) (direct : (fs.itable i).Direct)
    (room : fs.RoomForBlock i) : InSlots (makeDentryBlock fs i now) := by
  refine .bind getAvailableBit_inSlots fun available search => .ite (fun _ => .ok _) fun found => ?_
  have slot := room available search (by omega)
  refine .bind (allocateDataBlks_inSlots bounded direct slot) fun placed _ => ?_
  exact .bind setBits_inSlots fun set _ => .ok _

end Allocate

section Entry

variable {fs fs' : FsCtx} {i ino : Nat} {now : Timespec} {name : List Byte} {env : Env}

theorem FsCtx.Bounded.setInode (bounded : fs.Bounded) (i : Nat) (inode : A1fsInode)
    (bound : inode.lastUsedExtent ≤ 11) : (fs.setInode i inode).Bounded := by
  intro j
  by_cases same : j = i
  · rw [same, FsCtx.setInode_self]
    exact bound
  · rw [FsCtx.setInode_other same]
    exact bounded j

theorem FsCtx.Bounded.takeInode (bounded : fs.Bounded) (i : Nat) (mode : BitVec 32)
    (now : Timespec) : (fs.takeInode i mode now).Bounded :=
  bounded.setInode i (createInode (fs.itable i) mode now)
    (show (-1 : Int) ≤ 11 by decide)

theorem FsCtx.Bounded.dropInode (bounded : fs.Bounded) : (fs.dropInode i now).Bounded :=
  bounded.setInode i (resetInode (fs.itable i) now)
    (show (-1 : Int) ≤ 11 by decide)

theorem FsCtx.AddsBlock.bounded (added : fs.AddsBlock i now fs') (bounded : fs.Bounded) :
    fs'.Bounded := by
  obtain ⟨block, inode, growth, -, rfl⟩ := added
  have last := growth.last
  exact bounded.setInode i inode (by omega)

theorem writeDentry_inSlots {addr : Nat} : InSlots (writeDentry fs i ino name addr now) :=
  .bind (inSlots_guard (by decide)) fun stored _ => .ok _

theorem writeFree_inSlots (bounded : fs.Bounded) : InSlots (do
    match ← fs.findIno (fs.itable i) (-1) with
    | some addr => return (← writeDentry fs i ino name addr now, 0)
    | none => return (fs, -1) : Checked (FsCtx × Int)) := by
  refine .bind (findIno_inSlots (bounded i)) fun found _ => ?_
  cases found with
  | some addr => exact .bind writeDentry_inSlots fun written _ => .ok _
  | none => exact .ok _

/-- A directory without a free entry has room for one more block. -/
def FsCtx.RoomForEntry (fs : FsCtx) (i : Nat) : Prop :=
  fs.findIno (fs.itable i) (-1) = .ok none → fs.RoomForBlock i

instance : Decidable (fs.RoomForEntry i) := inferInstanceAs (Decidable (_ → _))

theorem addDentry_inSlots (bounded : fs.Bounded) (direct : (fs.itable i).Direct)
    (room : fs.RoomForEntry i) : InSlots (addDentry fs i ino name now) := by
  unfold addDentry
  refine .ite (fun unused => ?_) fun some => ?_
  · have slot : fs.RoomForBlock i := fun _ _ _ => .inl (by omega)
    refine .bind (makeDentryBlock_inSlots bounded direct slot) fun made make => ?_
    obtain ⟨made, code⟩ := made
    rcases makeDentryBlock_ok make with ⟨rfl, rfl, -⟩ | ⟨rfl, added⟩
    · exact .ok _
    · have bounded' := FsCtx.AddsBlock.bounded added bounded
      refine .bind (findIno_inSlots (bounded' i)) fun found search => ?_
      refine .ite (fun full => ?_) fun _ => writeFree_inSlots bounded'
      exact absurd (full ▸ search) (FsCtx.AddsBlock.free added)
  · rw [pure_bind]
    refine .bind (findIno_inSlots (bounded i)) fun found search => ?_
    refine .ite (fun full => ?_) fun _ => writeFree_inSlots bounded
    refine .bind (makeDentryBlock_inSlots bounded direct (room (full ▸ search))) fun made make => ?_
    obtain ⟨made, code⟩ := made
    rcases makeDentryBlock_ok make with ⟨rfl, rfl, -⟩ | ⟨rfl, added⟩
    · exact .ok _
    · exact writeFree_inSlots (FsCtx.AddsBlock.bounded added bounded)

theorem newEntry_inSlots (bounded : fs.Bounded) {path : CString} {mode : BitVec 32} {noParent : Int}
    (parent : ∀ ino p : Nat, getAvailableBit fs.sb fs.inodeBits .inode (-1) = .ok (ino : Int) →
      getInodeNum (fs.takeInode ino mode env.now) path 1 = .ok (p : Int) →
      ((fs.takeInode ino mode env.now).itable p).Direct ∧
        (fs.takeInode ino mode env.now).RoomForEntry p) :
    InSlots (newEntry env fs path mode noParent) := by
  refine .bind getAvailableBit_inSlots fun index search => .ite (fun _ => .ok _) fun found => ?_
  obtain ⟨ino, rfl⟩ : ∃ ino : Nat, index = ino := by
    rcases getAvailableBit_inode search with none | ⟨ino, same, -⟩
    · exact absurd none found
    · exact ⟨ino, same⟩
  refine .bind setBits_inSlots fun marked set => ?_
  obtain ⟨sb, bits⟩ := marked
  obtain ⟨-, rfl, rfl⟩ := setBits_inode_ok.mp set
  have taken := bounded.takeInode ino mode env.now
  refine .bind (getInodeNum_inSlots taken) fun par walk => .ite (fun _ => .ok _) fun _ => ?_
  refine .bind (inSlots_guard (by decide)) fun dir read => ?_
  obtain ⟨p, rfl⟩ : ∃ p : Nat, par = p := ⟨par.toNat, by omega⟩
  obtain ⟨direct, room⟩ := parent ino p search walk
  refine .bind (addDentry_inSlots taken direct room) fun entered _ => ?_
  exact .ite (fun _ => .ok _) fun _ => .ok _

end Entry

section Remove

variable {fs : FsCtx} {inode : A1fsInode} {path : CString} {ino : Nat} {dirs : Int} {env : Env}

theorem removeEntry_inSlots (bounded : fs.Bounded) : InSlots (removeEntry env fs path ino dirs) := by
  have reset (sb : A1fsSuperblock) (bits : Bitmap) :
      { fs.setInode ino (resetInode (fs.itable ino) env.now) with sb := sb, inodeBits := bits }.Bounded :=
    bounded.setInode ino (resetInode (fs.itable ino) env.now) (show (-1 : Int) ≤ 11 by decide)
  refine .bind checkBitUsage_inSlots fun used _ => .ite (fun _ => ?_) fun _ => .ok _
  refine .bind setBits_inSlots fun cleared _ => ?_
  obtain ⟨sb, bits⟩ := cleared
  refine .bind (getInodeNum_inSlots (reset sb bits)) fun parent _ => .ite (fun _ => .ok _) fun _ => ?_
  refine .bind (inSlots_guard (by decide)) fun dir read => ?_
  obtain ⟨-, rfl⟩ := inodeAt_ok.mp read
  refine .bind (findIno_inSlots (reset sb bits _)) fun found _ => ?_
  cases found with
  | some addr => exact .ok _
  | none => exact .ok _

theorem a1fsRmdir_inSlots (bounded : fs.Bounded) : InSlots (a1fsRmdir env fs path) := by
  refine .bind (getInodeNum_inSlots bounded) fun ino _ => .bind (inSlots_guard (by decide)) fun inode _ => ?_
  exact .ite (fun _ => .ok _) fun _ => removeEntry_inSlots bounded

theorem freeExtents_inSlots {l : List Nat} {sb : A1fsSuperblock} {bits : Bitmap}
    (inside : ∀ k ∈ l, k < 12) : InSlots (freeExtents inode l sb bits) := by
  induction l generalizing sb bits with
  | nil => exact .ok _
  | cons k l ih =>
    rw [freeExtents]
    refine .bind (extentAt_inSlots (inside k (by simp))) fun extent _ => ?_
    refine .bind checkBitUsage_inSlots fun used _ => .ite (fun _ => ?_) fun _ => .ok _
    refine .bind setBits_inSlots fun cleared _ => ?_
    exact ih fun k member => inside k (by simp [member])

theorem usedSlots_below (bound : inode.lastUsedExtent ≤ 11) : ∀ k ∈ inode.usedSlots, k < 12 := by
  intro k used
  rw [A1fsInode.mem_usedSlots] at used
  omega

theorem a1fsUnlink_inSlots (bounded : fs.Bounded) : InSlots (a1fsUnlink env fs path) := by
  have remove (sb : A1fsSuperblock) (bits : Bitmap) (ino : Nat) :
      InSlots (removeEntry env { fs with sb := sb, blockBits := bits } path ino 0) :=
    removeEntry_inSlots bounded
  unfold a1fsUnlink
  refine .bind (getInodeNum_inSlots bounded) fun ino _ => .bind (inSlots_guard (by decide)) fun inode read => ?_
  obtain ⟨-, rfl⟩ := inodeAt_ok.mp read
  refine .ite (fun _ => ?_) fun _ => ?_
  · refine .bind (freeExtents_inSlots (usedSlots_below (bounded _))) fun freed _ => ?_
    exact .ite (fun _ => remove _ _ _) fun _ => .ok _
  · rw [pure_bind]
    exact .ite (fun _ => remove _ _ _) fun _ => .ok _

end Remove

section Resize

variable {fs fs' : FsCtx} {inode : A1fsInode} {i fuel : Nat} {now : Timespec} {env : Env} {path : CString}

/-- The blocks for a number of bytes are found in one run, and there is a slot for them. -/
def FsCtx.RoomForBytes (fs : FsCtx) (i : Nat) (bytes : Int) : Prop :=
  Yields (blockRequest bytes) fun request =>
    (Yields (getAvailableBit fs.sb fs.blockBits .data request.1) fun first => 0 ≤ first) ∧
      fs.RoomFor i request.1.toNat

instance {bytes : Int} : Decidable (fs.RoomForBytes i bytes) := inferInstanceAs (Decidable (Yields _ _))

theorem makeDataBlocks_inSlots (bounded : fs.Bounded) (direct : (fs.itable i).Direct) {n : Int}
    (found : Yields (getAvailableBit fs.sb fs.blockBits .data n) fun first => 0 ≤ first)
    (room : fs.RoomFor i n.toNat) : InSlots (makeDataBlocks i now fuel fs n) := by
  cases fuel with
  | zero => exact .error (by decide)
  | succ fuel =>
    rw [makeDataBlocks]
    refine .bind getAvailableBit_inSlots fun available search => ?_
    have first := found available search
    refine .ite (fun _ => ?_) fun none => absurd (by omega) none
    exact .bind (allocateDataBlks_inSlots bounded direct room) fun placed _ =>
      .bind setBits_inSlots fun set _ => .ok _

theorem zeroOutBlocks_inSlots {k length j : Nat} {leftover left : Int} :
    InSlots (zeroOutBlocks i k leftover length fs j left) := by
  induction length generalizing fs j left with
  | zero => exact .ok _
  | succ length ih =>
    rw [zeroOutBlocks]
    refine .bind intArith_inSlots fun addr _ => .ite (fun _ => ?_) fun _ => ?_
    · exact .bind (inSlots_guard (by decide)) fun cleared _ => .ok _
    · exact .bind (inSlots_guard (by decide)) fun cleared _ => ih

theorem zeroExtents_inSlots {l : List Nat} {first start : Nat} {leftover left : Int}
    (inside : ∀ k ∈ l, k < 12) : InSlots (zeroExtents i leftover first start l fs left) := by
  induction l generalizing fs left with
  | nil => exact .ok _
  | cons k l ih =>
    rw [zeroExtents]
    refine .ite (fun _ => .ok _) fun _ => ?_
    refine .bind (extentAt_inSlots (inside k (by simp))) fun extent _ => ?_
    refine .bind zeroOutBlocks_inSlots fun zeroed _ => ?_
    exact ih fun k member => inside k (by simp [member])

theorem firstToZero_last (inode : A1fsInode) (k : Nat) (blocks : Int) (bound : k < 12)
    (holds : blocks ≤ (inode.iExtent k).count) : ∃ db, firstToZero inode (k + 1) blocks = .ok (k, db) := by
  refine ⟨((inode.iExtent k).start + (inode.iExtent k).count - blocks : Int).toNat, ?_⟩
  rw [firstToZero, A1fsInode.extentAt, if_pos bound, ok_bind, if_pos holds]
  rfl

theorem Growth.last_holds {n start : Nat} (growth : Growth fs i n now start inode) :
    n ≤ (inode.iExtent inode.lastUsedExtent.toNat).count := by
  cases growth with
  | append =>
    simp only [A1fsInode.appendExtent, A1fsInode.setExtent_self]
    exact le_refl n
  | attach =>
    change n ≤ (((fs.itable i).setExtent (fs.itable i).lastUsedExtent.toNat _).iExtent
      (fs.itable i).lastUsedExtent.toNat).count
    rw [A1fsInode.setExtent_self]
    exact Nat.le_add_left _ _

theorem truncateHelper_inSlots (bounded : fs.Bounded) (direct : (fs.itable i).Direct)
    (range : (fs.sb.sbFirstEmptyDb : Int) ≤ fs.sb.maxIndex) {bytes : Int}
    (room : fs.RoomForBytes i bytes) : InSlots (truncateHelper fuel fs i bytes now) := by
  have request_inSlots : InSlots (blockRequest bytes) := .bind intArith_inSlots fun _ _ => .ok _
  refine .bind request_inSlots fun request asked => ?_
  obtain ⟨found, slot⟩ := room request asked
  obtain ⟨blocks, leftover⟩ := request
  refine .bind (makeDataBlocks_inSlots bounded direct found slot) fun made make => ?_
  obtain ⟨made, count⟩ := made
  obtain ⟨rfl, n, rfl, start, inode, growth, -, rfl⟩ := makeDataBlocks_ok range make
  have last := growth.last
  have holds := growth.last_holds
  have table : (touch ((fs.setInode i inode).flipBlocks (List.range' start n) 1) i now).itable i =
      { inode with iMtime := now } := by
    rw [touch, FsCtx.setInode_self, FsCtx.flipBlocks_itable, FsCtx.setInode_self]
  have slots : (inode.lastUsedExtent + 1).toNat = inode.lastUsedExtent.toNat + 1 := by omega
  obtain ⟨db, search⟩ := firstToZero_last { inode with iMtime := now } inode.lastUsedExtent.toNat
    n (by omega) (by simpa using holds)
  simp only [ne_eq, not_true_eq_false, if_false, table, slots, search, ok_bind]
  refine .bind (zeroExtents_inSlots fun k member => ?_) fun zeroed _ => .ok _
  rw [List.mem_range'_1] at member
  omega

theorem releaseBlocks_inSlots {l : List Nat} {sb : A1fsSuperblock} {bits : Bitmap} {n : Int} :
    InSlots (releaseBlocks sb bits l n) := by
  induction l generalizing sb bits n with
  | nil => exact .ok _
  | cons b l ih =>
    rw [releaseBlocks]
    exact .ite (fun _ => .ok _) fun _ => .bind setBits_inSlots fun cleared _ => ih

theorem releaseExtents_inSlots {l : List Nat} {sb : A1fsSuperblock} {bits : Bitmap} {n : Int}
    (inside : ∀ k ∈ l, k < 12) : InSlots (releaseExtents inode sb bits l n) := by
  induction l generalizing sb bits n with
  | nil => exact .ok _
  | cons k l ih =>
    rw [releaseExtents]
    refine .ite (fun _ => .ok _) fun _ => ?_
    refine .bind (extentAt_inSlots (inside k (by simp))) fun extent _ => ?_
    refine .bind releaseBlocks_inSlots fun released _ => ?_
    exact ih fun k member => inside k (by simp [member])

theorem shrinkFile_inSlots (bounded : fs.Bounded) {size : Int} : InSlots (shrinkFile fs i size) := by
  refine .bind intArith_inSlots fun count _ => ?_
  refine .bind (releaseExtents_inSlots fun k member => ?_) fun released _ => .ok _
  exact usedSlots_below (bounded i) k (List.mem_reverse.mp member)

theorem lastDbIndex_inSlots (bound : inode.lastUsedExtent ≤ 11) (used : 0 ≤ inode.lastUsedExtent) :
    InSlots (lastDbIndex inode) := by
  rw [lastDbIndex, if_neg (by omega)]
  exact .bind (extentAt_inSlots (by omega)) fun last _ => .ok _

theorem extendFile_inSlots (bounded : fs.Bounded) (direct : (fs.itable i).Direct)
    (range : (fs.sb.sbFirstEmptyDb : Int) ≤ fs.sb.maxIndex) {size : Int}
    (some : (fs.itable i).lastUsedExtent ≠ -1) (larger : toInt (fs.itable i).size < size)
    (room : ∀ bytes ∈ helperSize (fs.itable i) size, fs.RoomForBytes i bytes) :
    InSlots (extendFile env fuel fs i size) := by
  have helper (data : Bytes) (bytes : Int) (asked : bytes ∈ helperSize (fs.itable i) size) :
      InSlots (truncateHelper fuel { fs with data := data } i bytes env.now) := by
    have bounded' : FsCtx.Bounded { fs with data := data } := bounded
    exact truncateHelper_inSlots bounded' direct range (room bytes asked)
  have low := direct.2
  have used : 0 ≤ (fs.itable i).lastUsedExtent := by omega
  unfold extendFile
  extract_lets inode curSize numBlocks leftover til
  have differ : ¬ curSize = size := by
    have larger' : curSize < size := larger
    omega
  have asked : helperSize inode size = if size < til then Option.some size
      else if size > til ∧ toInt (size - inode.size) - til ≠ 0 then
        Option.some (toInt (size - inode.size) - til) else none := by
    rw [helperSize, if_neg differ, if_neg some, if_pos larger]
  refine .ite (fun short => ?_) fun long => .ite (fun above => ?_) fun _ => .ok _
  · rw [if_pos short] at asked
    refine .bind (helper fs.data size asked) fun helped _ => ?_
    exact .ite (fun _ => .ok _) fun _ => .ok _
  · rw [if_neg long] at asked
    refine .bind (lastDbIndex_inSlots (bounded i) used) fun last _ => ?_
    refine .bind intArith_inSlots fun addr _ => .bind (inSlots_guard (by decide)) fun cleared clear => ?_
    obtain ⟨-, rfl⟩ := clearBytes_ok.mp clear
    refine .bind intArith_inSlots fun remaining arith => ?_
    have difference := (intArith_ok.mp arith).2
    refine .ite (fun more => ?_) fun _ => ?_
    · rw [← difference, if_pos ⟨above, more⟩] at asked
      refine .bind (helper _ remaining asked) fun helped _ => ?_
      exact .ite (fun _ => .ok _) fun _ => .ok _
    · rw [pure_bind]
      exact .ite (fun _ => .ok _) fun _ => .ok _

theorem a1fsTruncate_inSlots (bounded : fs.Bounded)
    (range : (fs.sb.sbFirstEmptyDb : Int) ≤ fs.sb.maxIndex) {size : Int}
    (room : ∀ i : Nat, getInodeNum fs path 0 = .ok (i : Int) → (fs.itable i).Direct ∧
      ∀ bytes ∈ helperSize (fs.itable i) size, fs.RoomForBytes i bytes) :
    InSlots (a1fsTruncate env fuel fs path size) := by
  refine .bind (getInodeNum_inSlots bounded) fun curInode walk => ?_
  refine .bind (inSlots_guard (by decide)) fun inode read => ?_
  obtain ⟨inside, rfl⟩ := inodeAt_ok.mp read
  obtain ⟨i, rfl⟩ : ∃ i : Nat, curInode = i := ⟨curInode.toNat, by omega⟩
  obtain ⟨direct, fits⟩ := room i walk
  rw [Int.toNat_natCast]
  refine .ite (fun _ => .ok _) fun differ => .ite (fun empty => ?_) fun some => ?_
  · have asked : helperSize (fs.itable i) size = Option.some size := by
      rw [helperSize, if_neg differ, if_pos empty]
    refine .bind (truncateHelper_inSlots bounded direct range (fits size asked)) fun helped _ => ?_
    exact .ite (fun _ => .ok _) fun _ => .ok _
  · exact .ite (fun larger => extendFile_inSlots bounded direct range some larger fits)
      fun _ => shrinkFile_inSlots bounded

end Resize

section Search

variable {fs : FsCtx} {inode : A1fsInode} {buf : List Byte} {k : Nat} {offset length written : Int}

def A1fsInode.capacity (inode : A1fsInode) (k : Nat) : Nat :=
  4096 * ((inode.usedSlots.drop k).map fun m => (inode.iExtent m).count).sum

/-- The search for an offset ends at slot `k`, the first whose size field is not 0. -/
def A1fsInode.EndsAt (inode : A1fsInode) (offset : Int) (k : Nat) : Prop :=
  (offset ≤ 0 ∧ k = 0) ∨
    (0 < offset ∧ offset ≤ (inode.iExtent k).size ∧ ∀ m < k, (inode.iExtent m).size = 0)

/-- The search for an offset ends at a slot, and the used slots from there on hold the bytes. -/
def A1fsInode.Serves (inode : A1fsInode) (offset length : Int) : Prop :=
  ∃ k < 12, inode.EndsAt offset k ∧ (length ≤ 0 ∨ offset + length ≤ inode.capacity k)

theorem findOffsetExtent_ends {slots cur : Nat} (ends : inode.EndsAt offset k) (start : cur ≤ k)
    (within : k < cur + slots) (total : cur + slots = 12) (nonneg : 0 < offset) :
    findOffsetExtent inode offset slots cur = .ok (k, 0) := by
  obtain ⟨-, reaches, passed⟩ := ends.resolve_left (by omega)
  induction slots generalizing cur with
  | zero => omega
  | succ slots ih =>
    rw [findOffsetExtent, if_neg (by omega), if_pos nonneg, A1fsInode.extentAt, if_pos (by omega),
      ok_bind]
    by_cases here : cur = k
    · subst here
      rw [if_neg (by omega)]
      rfl
    · have zero := passed cur (by omega)
      rw [if_pos (by omega), if_pos zero]
      exact ih (by omega) (by omega) (by omega)

variable (k) in
theorem capacity_step (bound : inode.lastUsedExtent ≤ 11) (some : 0 < inode.capacity k) :
    k < 12 ∧ inode.capacity k = 4096 * (inode.iExtent k).count + inode.capacity (k + 1) := by
  have used : k < inode.usedSlots.length := by
    by_contra beyond
    rw [A1fsInode.capacity, List.drop_of_length_le (by omega)] at some
    simp at some
  have slot : inode.usedSlots[k] = k := by simp [A1fsInode.usedSlots]
  rw [A1fsInode.usedSlots, List.length_range] at used
  refine ⟨by omega, ?_⟩
  rw [A1fsInode.capacity, List.drop_eq_getElem_cons (by rw [A1fsInode.usedSlots, List.length_range]; exact used),
    List.map_cons, List.sum_cons, slot, A1fsInode.capacity, Nat.mul_add]

theorem copyExtents_inSlots {slots : Nat} (bound : inode.lastUsedExtent ≤ 11) (total : k + slots = 12)
    (nonneg : 0 ≤ offset) (holds : length ≤ 0 ∨ offset + length ≤ inode.capacity k) :
    InSlots (copyExtents inode buf slots fs k offset length written) := by
  induction slots generalizing fs k offset length written with
  | zero =>
    rw [copyExtents]
    refine .ite (fun more => ?_) fun _ => .ok _
    have step := capacity_step k bound
    omega
  | succ slots ih =>
    rw [copyExtents]
    refine .ite (fun more => ?_) fun _ => .ok _
    refine .bind (extentAt_inSlots (by omega)) fun extent read => ?_
    obtain ⟨-, same⟩ := guard_eq_ok.mp read
    cases same
    refine .bind intArith_inSlots fun bytes arith => ?_
    obtain ⟨-, rfl⟩ := intArith_ok.mp arith
    refine .ite (fun beyond => .ite (fun _ => .error (by decide)) fun _ => ?_) fun _ => ?_
    · refine .bind (inSlots_guard (by decide)) fun stored _ => ih (by omega) (by omega) ?_
      have step := capacity_step k bound
      omega
    · exact inSlots_guard (by decide)

theorem search_inSlots {α : Type} {f : Nat × Int → Checked α} (serves : inode.Serves offset length)
    (after : ∀ cur found, (¬ found < 0 →
      cur < 12 ∧ 0 ≤ offset ∧ (length ≤ 0 ∨ offset + length ≤ inode.capacity cur)) →
      InSlots (f (cur, found))) : InSlots (findOffsetExtent inode offset 12 0 >>= f) := by
  obtain ⟨k, below, ends, holds⟩ := serves
  by_cases nonneg : 0 < offset
  · have search : findOffsetExtent inode offset 12 0 = .ok (k, 0) :=
      findOffsetExtent_ends ends (Nat.zero_le k) (by omega) rfl nonneg
    rw [search]
    exact after k 0 fun _ => ⟨below, by omega, holds⟩
  · obtain rfl : k = 0 := by
      rcases ends with ⟨-, first⟩ | ⟨some, -⟩
      · exact first
      · exact absurd some nonneg
    rw [findOffsetExtent]
    by_cases zero : offset = 0
    · rw [if_pos zero]
      exact after 0 0 fun _ => ⟨below, by omega, holds⟩
    · rw [if_neg zero, if_neg (by omega)]
      exact after 0 (-1) fun success => absurd (by omega) success

theorem readExtents_inSlots {slots size : Nat} {out : Buffer} (bound : inode.lastUsedExtent ≤ 11)
    (total : k + slots = 12) (nonneg : 0 ≤ offset)
    (holds : length ≤ 0 ∨ offset + length ≤ inode.capacity k) :
    InSlots (readExtents fs inode size slots out k offset length written) := by
  induction slots generalizing out k offset length written with
  | zero =>
    rw [readExtents]
    refine .ite (fun more => ?_) fun _ => .ok _
    have step := capacity_step k bound
    omega
  | succ slots ih =>
    have load (addr : Int) (n : Nat) : InSlots (fs.loadBytes addr n) := inSlots_guard (by decide)
    have copy (index : Int) (bytes : List Byte) : InSlots (out.copy size index bytes) :=
      inSlots_guard (by decide)
    rw [readExtents]
    refine .ite (fun more => ?_) fun _ => .ok _
    refine .bind (extentAt_inSlots (by omega)) fun extent read => ?_
    obtain ⟨-, same⟩ := guard_eq_ok.mp read
    cases same
    refine .bind intArith_inSlots fun bytes arith => ?_
    obtain ⟨-, rfl⟩ := intArith_ok.mp arith
    refine .ite (fun beyond => ?_) fun _ => .bind (load _ _) fun bytes _ => copy _ _
    refine .bind (load _ _) fun bytes _ => .bind (copy _ _) fun out _ => ?_
    refine .bind intArith_inSlots fun rest arith => ?_
    obtain ⟨-, rfl⟩ := intArith_ok.mp arith
    apply ih (by omega) (by omega)
    have step := capacity_step k bound
    omega

end Search

section Transfer

variable {fs : FsCtx} {path : CString} {buf : List Byte} {offset size fuel : Nat} {env : Env}

/-- The file that a write finds its place in: as it was, or resized before. -/
def WritesTo (env : Env) (fuel : Nat) (fs : FsCtx) (path : CString) (length offset i : Nat)
    (fs1 : FsCtx) : Prop :=
  if offset + length > (fs.itable i).size
  then a1fsTruncate env fuel fs path (length + offset : Nat) = .ok (fs1, 0) else fs1 = fs

theorem a1fsWrite_inSlots (bounded : fs.Bounded)
    (resize : ∀ i : Nat, getInodeNum fs path 0 = .ok (i : Int) →
      offset + buf.length > (fs.itable i).size →
      InSlots (a1fsTruncate env fuel fs path (buf.length + offset : Nat)))
    (serves : ∀ i : Nat, getInodeNum fs path 0 = .ok (i : Int) → ∀ fs1,
      WritesTo env fuel fs path buf.length offset i fs1 →
      (fs1.itable i).lastUsedExtent ≤ 11 ∧
        (fs1.itable i).Serves (toInt offset) (toInt buf.length)) :
    InSlots (a1fsWrite env fuel fs path buf offset) := by
  have copies (fs1 : FsCtx) (i cur : Nat) (bound : (fs1.itable i).lastUsedExtent ≤ 11)
      (found : cur < 12 ∧ 0 ≤ toInt offset ∧
        (toInt buf.length ≤ 0 ∨ toInt offset + toInt buf.length ≤ (fs1.itable i).capacity cur)) :
      InSlots (copyExtents (fs1.itable i) buf (12 - cur) fs1 cur (toInt offset)
        (toInt buf.length) 0 >>= fun copied => pure (copied, toInt buf.length)) :=
    .bind (copyExtents_inSlots bound (by omega) found.2.1 found.2.2) fun _ _ => .ok _
  unfold a1fsWrite
  refine .bind (getInodeNum_inSlots bounded) fun inodeNum walk => .ite (fun _ => .ok _) fun present => ?_
  refine .bind (inSlots_guard (by decide)) fun inode read => ?_
  obtain ⟨-, rfl⟩ := inodeAt_ok.mp read
  obtain ⟨i, rfl⟩ : ∃ i : Nat, inodeNum = i := ⟨inodeNum.toNat, by omega⟩
  rw [Int.toNat_natCast]
  refine .ite (fun beyond => ?_) fun within => ?_
  · refine .bind (resize i walk beyond) fun truncated made => ?_
    obtain ⟨fs1, t⟩ := truncated
    refine .ite (fun _ => .ok _) fun done => ?_
    obtain rfl : t = 0 := by omega
    obtain ⟨bound, served⟩ := serves i walk fs1 (by rw [WritesTo, if_pos beyond]; exact made)
    exact search_inSlots served fun cur found within =>
      .ite (fun _ => .ok _) fun success => copies fs1 i cur bound (within success)
  · rw [pure_bind]
    obtain ⟨bound, served⟩ := serves i walk fs (by rw [WritesTo, if_neg within])
    exact .ite (fun _ => .ok _) fun _ => search_inSlots served fun cur found within =>
      .ite (fun _ => .ok _) fun success => copies fs i cur bound (within success)

theorem a1fsRead_inSlots (bounded : fs.Bounded)
    (serves : ∀ i : Nat, getInodeNum fs path 0 = .ok (i : Int) →
      (offset : Int) ≤ toInt (fs.itable i).size →
      (fs.itable i).Serves (toInt offset) (toInt size)) :
    InSlots (a1fsRead env fs path size offset) := by
  unfold a1fsRead
  refine .bind (getInodeNum_inSlots bounded) fun inodeNum walk => .ite (fun _ => .ok _) fun present => ?_
  refine .bind (inSlots_guard (by decide)) fun inode read => ?_
  obtain ⟨-, rfl⟩ := inodeAt_ok.mp read
  obtain ⟨i, rfl⟩ : ∃ i : Nat, inodeNum = i := ⟨inodeNum.toNat, by omega⟩
  rw [Int.toNat_natCast]
  refine .ite (fun _ => .ok _) fun within => ?_
  refine search_inSlots (serves i walk (by omega)) fun cur found within => ?_
  refine .ite (fun _ => .ok _) fun success => ?_
  obtain ⟨below, nonneg, holds⟩ := within success
  exact .bind (readExtents_inSlots (bounded i) (by omega) nonneg holds) fun out _ => .ok _

end Transfer

end ExtentFs
