import ExtentFs.Base.Agree
import ExtentFs.Model.Requests

namespace ExtentFs

open Base

/-! Times are stored and copied, and nothing is computed from them: every function commutes with a
change of all times. -/

namespace A1fsInode

def mapTime (g : Timespec → Timespec) (inode : A1fsInode) : A1fsInode :=
  { inode with iMtime := g inode.iMtime }

theorem extentAt_times {g : Timespec → Timespec} {inode : A1fsInode} {k : Nat} :
    (inode.mapTime g).extentAt k = inode.extentAt k := rfl

end A1fsInode

namespace FsCtx

def mapTimes (g : Timespec → Timespec) (fs : FsCtx) : FsCtx :=
  { fs with itable := fun k => (fs.itable k).mapTime g }

variable {g : Timespec → Timespec} {fs : FsCtx} {i : Nat} {inode : A1fsInode}

theorem dentryAddr_times {j k : Nat} : (fs.mapTimes g).dentryAddr j k = fs.dentryAddr j k := rfl

@[simp] theorem mapTimes_itable : (fs.mapTimes g).itable i = (fs.itable i).mapTime g := rfl

theorem eq_mapTimes {fs' : FsCtx} (size : fs'.size = fs.size) (sb : fs'.sb = fs.sb)
    (inodeBits : fs'.inodeBits = fs.inodeBits) (blockBits : fs'.blockBits = fs.blockBits)
    (itable : ∀ k, fs'.itable k = (fs.itable k).mapTime g) (data : fs'.data = fs.data) :
    fs' = fs.mapTimes g := by
  have table : fs'.itable = fun k => (fs.itable k).mapTime g := funext itable
  cases fs'
  simp only at size sb inodeBits blockBits table data
  rw [size, sb, inodeBits, blockBits, table, data]
  rfl

theorem setInode_times {inode' : A1fsInode} (same : inode' = inode.mapTime g) (k : Nat) :
    ((fs.mapTimes g).setInode i inode').itable k = ((fs.setInode i inode).itable k).mapTime g := by
  subst same
  simp only [setInode]
  split <;> rfl

theorem mapTimes_setInode :
    (fs.mapTimes g).setInode i (inode.mapTime g) = (fs.setInode i inode).mapTimes g :=
  eq_mapTimes rfl rfl rfl rfl (setInode_times rfl) rfl

end FsCtx

def Env.mapTimes (g : Timespec → Timespec) (env : Env) : Env := { env with now := g env.now }

def Stat.mapTime (g : Timespec → Timespec) (st : Stat) : Stat := { st with stMtim := g st.stMtim }

def Request.mapTimes (g : Timespec → Timespec) : Request → Request
  | .utimens path times => .utimens path (g times.1, g times.2)
  | request => request

def Reply.mapTimes (g : Timespec → Timespec) : Reply → Reply
  | .getattr result st => .getattr result (st.map (Stat.mapTime g))
  | reply => reply

/-- The second state is the first one with its times changed; the values beside them are equal. -/
def Retimed {α : Type} (g : Timespec → Timespec) (a b : FsCtx × α) : Prop := b = (a.1.mapTimes g, a.2)

section Lookup

variable {g : Timespec → Timespec} {fs : FsCtx} {dir : A1fsInode}

theorem strcmp_times {addr : Nat} {token : List Byte} :
    (fs.mapTimes g).strcmp addr token = fs.strcmp addr token := by
  induction token generalizing addr with
  | nil => rfl
  | cons c token ih =>
    simp only [FsCtx.strcmp, ih]
    rfl

theorem findIno_times {ino : Int} : (fs.mapTimes g).findIno (dir.mapTime g) ino = fs.findIno dir ino := rfl

theorem inodeAt_times {i : Int} : Agree (fun a b => b = a.mapTime g) (fs.inodeAt i) ((fs.mapTimes g).inodeAt i) :=
  .ite (fun _ => .ok rfl) fun _ => .error

theorem inodeLookup_times {par : Int} {token : List Byte} :
    inodeLookup (fs.mapTimes g) par token = inodeLookup fs par token := by
  have agree : Agree Eq (inodeLookup fs par token) (inodeLookup (fs.mapTimes g) par token) := by
    unfold inodeLookup
    refine .ite (fun _ => .pure rfl) fun _ => .bind inodeAt_times ?_
    rintro dir _ rfl
    have scan : (fs.mapTimes g).scanDentries (dir.mapTime g) (fun addr => do
        if ← (fs.mapTimes g).strcmp (addr + 4) token then
          return some ((fs.mapTimes g).dentryIno addr) else return none) =
        fs.scanDentries dir (fun addr => do
          if ← fs.strcmp (addr + 4) token then return some (fs.dentryIno addr) else return none) := by
      simp only [strcmp_times]
      rfl
    rw [scan]
    exact .next fun found _ => .pure rfl
  exact agree.eq.symm

theorem walkTokens_times {tokens : List (List Byte)} {par cur : Int} :
    walkTokens (fs.mapTimes g) tokens par cur = walkTokens fs tokens par cur := by
  induction tokens generalizing par cur with
  | nil => rfl
  | cons token rest ih =>
    simp only [walkTokens, inodeLookup_times, ih]

theorem getInodeNum_times {path : CString} {tog : Nat} :
    getInodeNum (fs.mapTimes g) path tog = getInodeNum fs path tog := by
  simp only [getInodeNum, walkTokens_times]

theorem walkTo_times {i : Nat} {tokens : List (List Byte)} :
    walkTo (fs.mapTimes g) i tokens = walkTo fs i tokens := by
  induction tokens generalizing i with
  | nil => rfl
  | cons token rest ih =>
    simp only [walkTo, inodeLookup_times, ih]
    rfl

theorem resolve_times {path : CString} : (fs.mapTimes g).resolve path = fs.resolve path := walkTo_times

theorem parent_times {path : CString} : (fs.mapTimes g).parent path = fs.parent path := by
  rw [FsCtx.parent, walkTo_times]
  rfl

theorem documented_times {call : Call} : Documented (fs.mapTimes g) call ↔ Documented fs call := by
  have creatable (path : CString) : Creatable (fs.mapTimes g) path ↔ Creatable fs path := by
    simp only [Creatable, parent_times, inodeLookup_times]
  have file (path : CString) : IsFile (fs.mapTimes g) path ↔ IsFile fs path := by
    simp only [IsFile, resolve_times]
    rfl
  cases call with
  | create path mode => exact creatable path
  | mkdir path mode => exact and_congr_left fun _ => creatable path
  | unlink path => exact file path
  | rmdir path =>
    simp only [Documented, IsDirectory, resolve_times]
    rfl
  | truncate path size => exact file path
  | write path buf offset => exact and_congr_left fun _ => file path

end Lookup

section Grow

variable {g : Timespec → Timespec} {fs : FsCtx} {i : Nat} {now : Timespec}

theorem Retimed.intro {α : Type} {fs' : FsCtx} {a : α} (same : fs' = fs.mapTimes g) :
    Retimed g (fs, a) (fs', a) := by
  rw [Retimed, same]

theorem attachable_times {n : Nat} : Agree Eq (attachable fs i n) (attachable (fs.mapTimes g) i n) := by
  unfold attachable
  refine .ite (fun _ => .error) fun _ => ?_
  exact .next fun last _ => .next fun used _ => .pure rfl

theorem setDbExtent_times {inode : A1fsInode} {index start count : Nat} {new : Bool} :
    Agree (fun a b => b = a.mapTime g) (setDbExtent inode index start count new now)
      (setDbExtent (inode.mapTime g) index start count new (g now)) := by
  unfold setDbExtent
  rw [A1fsInode.extentAt_times]
  exact .next fun old _ => .pure rfl

theorem freeDentry_times {start k : Nat} :
    Agree (fun a b => b = a.mapTimes g) (freeDentry fs start k) (freeDentry (fs.mapTimes g) start k) := by
  unfold freeDentry
  rw [FsCtx.dentryAddr_times]
  exact .next fun addr _ => .pure rfl

theorem setDirbExtent_times {index start count : Nat} {new : Bool} :
    Agree (fun a b => b = a.mapTimes g) (setDirbExtent fs i index start count new now)
      (setDirbExtent (fs.mapTimes g) i index start count new (g now)) := by
  unfold setDirbExtent
  refine .bind setDbExtent_times ?_
  rintro inode _ rfl
  refine .foldlM ?_ ?_
  · rintro fs1 _ k rfl
    exact freeDentry_times
  · exact FsCtx.mapTimes_setInode

theorem placeExtent_times {index start count : Nat} {new : Bool} {dbType : BlockType} :
    Agree (Retimed g) (placeExtent fs i index start count new dbType now)
      (placeExtent (fs.mapTimes g) i index start count new dbType (g now)) := by
  unfold placeExtent
  cases dbType with
  | data =>
    refine .bind setDbExtent_times ?_
    rintro inode _ rfl
    exact .pure (.intro FsCtx.mapTimes_setInode)
  | directory =>
    refine .bind setDirbExtent_times ?_
    rintro fs1 _ rfl
    exact .pure (.intro rfl)

theorem setLastUsedExtent_times {index : Int} :
    setLastUsedExtent (fs.mapTimes g) i index = (setLastUsedExtent fs i index).mapTimes g :=
  FsCtx.eq_mapTimes rfl rfl rfl rfl (FsCtx.setInode_times rfl) rfl

theorem allocateDataBlks_times {data count : Nat} {dbType : BlockType} :
    Agree (Retimed g) (allocateDataBlks fs i data count dbType now)
      (allocateDataBlks (fs.mapTimes g) i data count dbType (g now)) := by
  unfold allocateDataBlks
  refine .ite (fun _ => ?_) fun _ => .bind attachable_times ?_
  · rw [setLastUsedExtent_times]
    exact placeExtent_times
  · rintro ⟨attach, index, after⟩ _ rfl
    dsimp only
    rw [setLastUsedExtent_times]
    exact .ite (fun _ => placeExtent_times) fun _ => placeExtent_times

theorem makeDentryBlock_times : Agree (Retimed g) (makeDentryBlock fs i now)
    (makeDentryBlock (fs.mapTimes g) i (g now)) := by
  unfold makeDentryBlock
  refine .next fun available _ => .ite (fun _ => .pure (.intro rfl)) fun _ => ?_
  refine .bind allocateDataBlks_times ?_
  rintro ⟨fs1, block⟩ _ rfl
  refine .next fun marked _ => .pure (.intro rfl)

theorem writeDentry_times {ino addr : Nat} {name : List Byte} :
    Agree (fun a b => b = a.mapTimes g) (writeDentry fs i ino name addr now)
      (writeDentry (fs.mapTimes g) i ino name addr (g now)) := by
  unfold writeDentry
  have stored : Agree (fun a b => b = a.mapTimes g) (fs.storeBytes (addr + 4) (name ++ [0#8]))
      ((fs.mapTimes g).storeBytes (addr + 4) (name ++ [0#8])) :=
    .ite (fun _ => .ok rfl) fun _ => .error
  refine .bind stored ?_
  rintro fs1 _ rfl
  exact .pure (FsCtx.eq_mapTimes rfl rfl rfl rfl (FsCtx.setInode_times rfl) rfl)

theorem addDentry_times {ino : Nat} {name : List Byte} : Agree (Retimed g) (addDentry fs i ino name now)
    (addDentry (fs.mapTimes g) i ino name (g now)) := by
  have block (needed : Prop) [Decidable needed] (fs1 : FsCtx) : Agree (Retimed g)
      (if needed then makeDentryBlock fs1 i now else pure (fs1, 0))
      (if needed then makeDentryBlock (fs1.mapTimes g) i (g now) else pure (fs1.mapTimes g, 0)) :=
    .ite (fun _ => makeDentryBlock_times) fun _ => .pure (.intro rfl)
  unfold addDentry
  refine .jump (block _ fs) ?_
  rintro ⟨fs1, made⟩ _ rfl
  refine .ite (fun _ => .pure (.intro rfl)) fun _ => .next fun free _ => .jump (block _ fs1) ?_
  rintro ⟨fs2, made⟩ _ rfl
  refine .ite (fun _ => .pure (.intro rfl)) fun _ => .next fun found _ => ?_
  cases found with
  | none => exact .pure (.intro rfl)
  | some addr =>
    refine .bind writeDentry_times ?_
    rintro fs3 _ rfl
    exact .pure (.intro rfl)

theorem createRepeatedly_times {make make' : FsCtx → Checked (FsCtx × Int)} {n total : Int} {fuel : Nat}
    (each : ∀ fs, Agree (Retimed g) (make fs) (make' (fs.mapTimes g))) :
    Agree (Retimed g) (createRepeatedly make n fuel fs total)
      (createRepeatedly make' n fuel (fs.mapTimes g) total) := by
  induction fuel generalizing fs total with
  | zero => exact .error
  | succ fuel ih =>
    rw [createRepeatedly, createRepeatedly]
    refine .bind (each fs) ?_
    rintro ⟨fs1, created⟩ _ rfl
    refine .ite (fun _ => .ite (fun _ => ih) fun _ => .pure (.intro rfl)) fun _ => .pure (.intro rfl)

theorem makeDataBlocks_times {fuel : Nat} {n : Int} : Agree (Retimed g) (makeDataBlocks i now fuel fs n)
    (makeDataBlocks i (g now) fuel (fs.mapTimes g) n) := by
  induction fuel generalizing fs n with
  | zero => exact .error
  | succ fuel ih =>
    rw [makeDataBlocks, makeDataBlocks]
    refine .next fun available _ => .ite (fun _ => .bind allocateDataBlks_times ?_) fun _ => ?_
    · rintro ⟨fs1, block⟩ _ rfl
      exact .next fun marked _ => .pure (.intro rfl)
    · exact createRepeatedly_times fun fs => ih

end Grow

section Resize

variable {g : Timespec → Timespec} {fs : FsCtx} {i : Nat} {env : Env} {now : Timespec} {fuel : Nat}

theorem clearBytes_times {addr length : Int} : Agree (fun a b => b = a.mapTimes g)
    (fs.clearBytes addr length) ((fs.mapTimes g).clearBytes addr length) :=
  .ite (fun _ => .ok rfl) fun _ => .error

theorem storeBytes_times {addr : Int} {bytes : List Byte} : Agree (fun a b => b = a.mapTimes g)
    (fs.storeBytes addr bytes) ((fs.mapTimes g).storeBytes addr bytes) :=
  .ite (fun _ => .ok rfl) fun _ => .error

/-- A state with another inode, whose times are changed before or after. -/
theorem setInode_retimed {inode inode' : A1fsInode} (same : inode' = inode.mapTime g) :
    (fs.mapTimes g).setInode i inode' = (fs.setInode i inode).mapTimes g :=
  FsCtx.eq_mapTimes rfl rfl rfl rfl (FsCtx.setInode_times same) rfl

theorem zeroOutBlocks_times {fs' : FsCtx} {k j length : Nat} {leftover left : Int}
    (same : fs' = fs.mapTimes g) : Agree (Retimed g) (zeroOutBlocks i k leftover length fs j left)
      (zeroOutBlocks i k leftover length fs' j left) := by
  induction length generalizing fs fs' j left with
  | zero => exact .ok (.intro same)
  | succ length ih =>
    subst same
    rw [zeroOutBlocks, zeroOutBlocks]
    refine .next fun addr _ => .ite (fun _ => .bind clearBytes_times ?_) fun _ => .bind clearBytes_times ?_
    · rintro fs1 _ rfl
      exact .pure (.intro (setInode_retimed rfl))
    · rintro fs1 _ rfl
      exact ih (setInode_retimed rfl)

theorem zeroExtents_times {fs' : FsCtx} {l : List Nat} {first start : Nat} {leftover left : Int}
    (same : fs' = fs.mapTimes g) :
    Agree (fun a b => b = a.mapTimes g) (zeroExtents i leftover first start l fs left)
      (zeroExtents i leftover first start l fs' left) := by
  induction l generalizing fs fs' left with
  | nil => exact .ok same
  | cons k l ih =>
    subst same
    rw [zeroExtents, zeroExtents]
    refine .ite (fun _ => .ok rfl) fun _ => .next fun extent _ => .bind (zeroOutBlocks_times rfl) ?_
    rintro ⟨fs1, left1⟩ _ rfl
    exact ih (setInode_retimed rfl)

theorem touch_times : touch (fs.mapTimes g) i (g now) = (touch fs i now).mapTimes g := setInode_retimed rfl

theorem firstToZero_times {inode : A1fsInode} {slots : Nat} {blocks : Int} :
    firstToZero (inode.mapTime g) slots blocks = firstToZero inode slots blocks := by
  induction slots generalizing blocks with
  | zero => rfl
  | succ slots ih =>
    simp only [firstToZero, ih]
    rfl

theorem truncateHelper_times {size : Int} : Agree (Retimed g) (truncateHelper fuel fs i size now)
    (truncateHelper fuel (fs.mapTimes g) i size (g now)) := by
  unfold truncateHelper
  refine .next fun request _ => .bind makeDataBlocks_times ?_
  rintro ⟨fs1, made⟩ _ rfl
  refine .ite (fun _ => .pure (.intro rfl)) fun _ => ?_
  dsimp only
  rw [touch_times, FsCtx.mapTimes_itable, firstToZero_times]
  refine .next fun start _ => .bind (zeroExtents_times rfl) ?_
  rintro fs2 _ rfl
  exact .pure (.intro touch_times)

theorem grow_times {bytes : Int} : grow (fs.mapTimes g) i bytes = (grow fs i bytes).mapTimes g :=
  setInode_retimed rfl

theorem lastDbIndex_times {inode : A1fsInode} : lastDbIndex (inode.mapTime g) = lastDbIndex inode := rfl

theorem extendFile_times {size : Int} : Agree (Retimed g) (extendFile env fuel fs i size)
    (extendFile (env.mapTimes g) fuel (fs.mapTimes g) i size) := by
  unfold extendFile
  refine .ite (fun _ => .bind truncateHelper_times ?_) fun _ => .ite (fun _ => ?_) fun _ => .pure (.intro rfl)
  · rintro ⟨fs1, helped⟩ _ rfl
    exact .ite (fun _ => .pure (.intro rfl)) fun _ => .pure (.intro grow_times)
  · rw [FsCtx.mapTimes_itable, lastDbIndex_times]
    refine .next fun last _ => .next fun addr _ => .bind clearBytes_times ?_
    rintro fs1 _ rfl
    refine .next fun remaining _ => .jump (.ite (fun _ => truncateHelper_times) fun _ => .pure (.intro rfl)) ?_
    rintro ⟨fs2, helped⟩ _ rfl
    exact .ite (fun _ => .pure (.intro rfl)) fun _ => .pure (.intro grow_times)

theorem releaseExtents_times {inode : A1fsInode} {sb : A1fsSuperblock} {bits : Bitmap} {l : List Nat}
    {n : Int} : releaseExtents (inode.mapTime g) sb bits l n = releaseExtents inode sb bits l n := by
  induction l generalizing sb bits n with
  | nil => rfl
  | cons k l ih =>
    simp only [releaseExtents, ih]
    rfl

theorem shrinkFile_times {size : Int} : Agree (Retimed g) (shrinkFile fs i size)
    (shrinkFile (fs.mapTimes g) i size) := by
  unfold shrinkFile
  rw [FsCtx.mapTimes_itable]
  refine .next fun n _ => ?_
  rw [releaseExtents_times]
  refine .next fun released _ => .pure (.intro ?_)
  refine FsCtx.eq_mapTimes rfl rfl rfl rfl (FsCtx.setInode_times ?_) rfl
  split <;> rfl

theorem a1fsTruncate_times {path : CString} {size : Int} : Agree (Retimed g)
    (a1fsTruncate env fuel fs path size) (a1fsTruncate (env.mapTimes g) fuel (fs.mapTimes g) path size) := by
  unfold a1fsTruncate
  rw [getInodeNum_times]
  refine .next fun i _ => .bind inodeAt_times ?_
  rintro inode _ rfl
  refine .ite (fun _ => .pure (.intro rfl)) fun _ => .ite (fun _ => .bind truncateHelper_times ?_)
    fun _ => .ite (fun _ => extendFile_times) fun _ => shrinkFile_times
  rintro ⟨fs1, helped⟩ _ rfl
  exact .ite (fun _ => .pure (.intro rfl)) fun _ => .pure (.intro (setInode_retimed rfl))

theorem findOffsetExtent_times {inode : A1fsInode} {offset : Int} {slots k : Nat} :
    findOffsetExtent (inode.mapTime g) offset slots k = findOffsetExtent inode offset slots k := by
  induction slots generalizing k with
  | zero => rfl
  | succ slots ih =>
    simp only [findOffsetExtent, ih]
    rfl

theorem copyExtents_times {inode : A1fsInode} {buf : List Byte} {slots k : Nat}
    {offset left written : Int} : Agree (fun a b => b = a.mapTimes g)
      (copyExtents inode buf slots fs k offset left written)
      (copyExtents (inode.mapTime g) buf slots (fs.mapTimes g) k offset left written) := by
  induction slots generalizing fs k offset left written with
  | zero => exact .ite (fun _ => .error) fun _ => .ok rfl
  | succ slots ih =>
    rw [copyExtents, copyExtents, A1fsInode.extentAt_times]
    refine .ite (fun _ => .next fun extent _ => .next fun bytes _ => ?_) fun _ => .ok rfl
    refine .ite (fun _ => .ite (fun _ => .error) fun _ => .bind storeBytes_times ?_) fun _ =>
      storeBytes_times
    rintro fs1 _ rfl
    exact ih

theorem a1fsWrite_times {path : CString} {buf : List Byte} {offset : Nat} : Agree (Retimed g)
    (a1fsWrite env fuel fs path buf offset) (a1fsWrite (env.mapTimes g) fuel (fs.mapTimes g) path buf offset) := by
  unfold a1fsWrite
  rw [getInodeNum_times]
  refine .next fun i _ => .ite (fun _ => .pure (.intro rfl)) fun _ => .bind inodeAt_times ?_
  rintro inode _ rfl
  refine .jump (.ite (fun _ => a1fsTruncate_times) fun _ => .pure (.intro rfl)) ?_
  rintro ⟨fs1, truncated⟩ _ rfl
  refine .ite (fun _ => .pure (.intro rfl)) fun _ => ?_
  dsimp only
  rw [FsCtx.mapTimes_itable, findOffsetExtent_times]
  refine .next fun found _ => .ite (fun _ => .pure (.intro rfl)) fun _ => .bind copyExtents_times ?_
  rintro fs2 _ rfl
  exact .pure (.intro rfl)

end Resize

section Entries

variable {g : Timespec → Timespec} {fs : FsCtx} {env : Env} {fuel : Nat} {path : CString}

theorem newEntry_times {mode : BitVec 32} {noParent : Int} : Agree (Retimed g)
    (newEntry env fs path mode noParent)
    (newEntry (env.mapTimes g) (fs.mapTimes g) path mode noParent) := by
  unfold newEntry
  refine .next fun index _ => .ite (fun _ => .pure (.intro rfl)) fun _ => .next fun marked _ => ?_
  have taken (bits : A1fsSuperblock × Bitmap) :
      ({ fs.mapTimes g with sb := bits.1, inodeBits := bits.2 } : FsCtx).setInode index.toNat
        (createInode ((fs.mapTimes g).itable index.toNat) mode (g env.now)) =
      (({ fs with sb := bits.1, inodeBits := bits.2 } : FsCtx).setInode index.toNat
        (createInode (fs.itable index.toNat) mode env.now)).mapTimes g :=
    FsCtx.eq_mapTimes rfl rfl rfl rfl (FsCtx.setInode_times rfl) rfl
  dsimp only
  rw [Env.mapTimes, taken, getInodeNum_times]
  refine .next fun parent _ => .ite (fun _ => .pure (.intro rfl)) fun _ => .bind inodeAt_times ?_
  rintro dir _ rfl
  refine .bind addDentry_times ?_
  rintro ⟨fs1, added⟩ _ rfl
  exact .ite (fun _ => .pure (.intro rfl)) fun _ => .pure (.intro rfl)

theorem removeEntry_times {ino : Nat} {dirs : Int} : Agree (Retimed g) (removeEntry env fs path ino dirs)
    (removeEntry (env.mapTimes g) (fs.mapTimes g) path ino dirs) := by
  have reset : (fs.mapTimes g).setInode ino (resetInode ((fs.mapTimes g).itable ino) (g env.now)) =
      (fs.setInode ino (resetInode (fs.itable ino) env.now)).mapTimes g := setInode_retimed rfl
  unfold removeEntry
  rw [Env.mapTimes, reset]
  generalize fs.setInode ino (resetInode (fs.itable ino) env.now) = fs1
  refine .next fun used _ => .ite (fun _ => .next fun marked _ => ?_) fun _ => .pure (.intro rfl)
  have flipped : ({ fs1.mapTimes g with sb := marked.1, inodeBits := marked.2 } : FsCtx) =
      ({ fs1 with sb := marked.1, inodeBits := marked.2 } : FsCtx).mapTimes g := rfl
  dsimp only
  rw [flipped, getInodeNum_times]
  generalize ({ fs1 with sb := marked.1, inodeBits := marked.2 } : FsCtx) = fs2
  refine .next fun parent _ => .ite (fun _ => .pure (.intro rfl)) fun _ => .bind inodeAt_times ?_
  rintro dir _ rfl
  rw [findIno_times]
  refine .next fun found _ => ?_
  cases found with
  | none => exact .pure (.intro rfl)
  | some addr => exact .pure (.intro (FsCtx.eq_mapTimes rfl rfl rfl rfl (FsCtx.setInode_times rfl) rfl))

theorem a1fsRmdir_times : Agree (Retimed g) (a1fsRmdir env fs path)
    (a1fsRmdir (env.mapTimes g) (fs.mapTimes g) path) := by
  unfold a1fsRmdir
  rw [getInodeNum_times]
  refine .next fun ino _ => .bind inodeAt_times ?_
  rintro inode _ rfl
  exact .ite (fun _ => .pure (.intro rfl)) fun _ => removeEntry_times

theorem freeExtents_times {inode : A1fsInode} {l : List Nat} {sb : A1fsSuperblock} {bits : Bitmap} :
    freeExtents (inode.mapTime g) l sb bits = freeExtents inode l sb bits := by
  induction l generalizing sb bits with
  | nil => rfl
  | cons k l ih =>
    simp only [freeExtents, ih]
    rfl

theorem a1fsUnlink_times : Agree (Retimed g) (a1fsUnlink env fs path)
    (a1fsUnlink (env.mapTimes g) (fs.mapTimes g) path) := by
  unfold a1fsUnlink
  rw [getInodeNum_times]
  refine .next fun ino _ => .bind inodeAt_times ?_
  rintro inode _ rfl
  have freed : Agree Eq
      (if inode.size ≠ 0 ∨ inode.lastUsedExtent ≠ -1
        then freeExtents inode inode.usedSlots fs.sb fs.blockBits else pure (fs.sb, fs.blockBits, true))
      (if (inode.mapTime g).size ≠ 0 ∨ (inode.mapTime g).lastUsedExtent ≠ -1
        then freeExtents (inode.mapTime g) (inode.mapTime g).usedSlots (fs.mapTimes g).sb
          (fs.mapTimes g).blockBits
        else pure ((fs.mapTimes g).sb, (fs.mapTimes g).blockBits, true)) := by
    rw [freeExtents_times]
    exact .refl _
  refine .jump freed ?_
  rintro ⟨sb, bits, done⟩ _ rfl
  have same : ({ fs.mapTimes g with sb := sb, blockBits := bits } : FsCtx) =
      ({ fs with sb := sb, blockBits := bits } : FsCtx).mapTimes g := rfl
  dsimp only
  rw [same]
  exact .ite (fun _ => removeEntry_times) fun _ => .pure (.intro rfl)

theorem exec_times {call : Call} : Agree (Retimed g) (call.exec env fuel fs)
    (call.exec (env.mapTimes g) fuel (fs.mapTimes g)) := by
  cases call with
  | create path mode => exact .ite (fun _ => newEntry_times) fun _ => .error
  | mkdir path mode => exact newEntry_times
  | unlink path => exact a1fsUnlink_times
  | rmdir path => exact a1fsRmdir_times
  | truncate path size => exact a1fsTruncate_times
  | write path buf offset => exact a1fsWrite_times

end Entries

section Requests

variable {g : Timespec → Timespec} {fs : FsCtx} {env : Env} {fuel : Nat} {path : CString}

theorem a1fsUtimens_times {times : Timespec × Timespec} : Agree (Retimed g)
    (a1fsUtimens env fs path times)
    (a1fsUtimens (env.mapTimes g) (fs.mapTimes g) path (g times.1, g times.2)) := by
  unfold a1fsUtimens
  rw [getInodeNum_times]
  refine .next fun i _ => .ite (fun _ => .pure (.intro rfl)) fun _ => .bind inodeAt_times ?_
  rintro inode _ rfl
  exact .pure (.intro (setInode_retimed rfl))

theorem a1fsGetattr_times : Agree (fun a b => b = (a.1, a.2.map (Stat.mapTime g))) (a1fsGetattr fs path)
    (a1fsGetattr (fs.mapTimes g) path) := by
  unfold a1fsGetattr
  refine .ite (fun _ => .pure rfl) fun _ => .ite (fun _ => .pure rfl) fun _ => ?_
  rw [getInodeNum_times]
  refine .next fun i _ => .ite (fun _ => .pure rfl) fun _ => .bind inodeAt_times ?_
  rintro inode _ rfl
  exact .pure rfl

theorem nameAt_times {addr : Nat} : nameAt (fs.mapTimes g) addr = nameAt fs addr := by
  have from_ (room addr : Nat) : cstringFrom (fs.mapTimes g) room addr = cstringFrom fs room addr := by
    induction room generalizing addr with
    | zero => rfl
    | succ room ih =>
      simp only [cstringFrom, ih]
      rfl
  exact from_ _ _

theorem a1fsReaddir_times : Agree Eq (a1fsReaddir env fs path)
    (a1fsReaddir (env.mapTimes g) (fs.mapTimes g) path) := by
  unfold a1fsReaddir
  refine .ite (fun _ => .pure rfl) fun _ => ?_
  rw [getInodeNum_times]
  refine .next fun i _ => .ite (fun _ => .pure rfl) fun _ => .bind inodeAt_times ?_
  rintro dir _ rfl
  simp only [nameAt_times]
  exact .refl _

theorem readExtents_times {inode : A1fsInode} {size slots k : Nat} {buf : Buffer}
    {offset left index : Int} : readExtents (fs.mapTimes g) (inode.mapTime g) size slots buf k offset left index =
      readExtents fs inode size slots buf k offset left index := by
  induction slots generalizing buf k offset left index with
  | zero => rfl
  | succ slots ih =>
    simp only [readExtents, ih]
    rfl

theorem a1fsRead_times {size offset : Nat} : Agree Eq (a1fsRead env fs path size offset)
    (a1fsRead (env.mapTimes g) (fs.mapTimes g) path size offset) := by
  unfold a1fsRead
  rw [getInodeNum_times]
  refine .next fun i _ => .ite (fun _ => .pure rfl) fun _ => .bind inodeAt_times ?_
  rintro inode _ rfl
  refine .ite (fun _ => .pure rfl) fun _ => ?_
  rw [findOffsetExtent_times]
  refine .next fun found _ => .ite (fun _ => .pure rfl) fun _ => ?_
  rw [readExtents_times]
  exact .refl _

theorem serve_times {request : Request} :
    Agree (fun a b => b = (a.1.mapTimes g, a.2.mapTimes g)) (request.serve env fuel fs)
      ((request.mapTimes g).serve (env.mapTimes g) fuel (fs.mapTimes g)) := by
  cases request with
  | statfs path => exact .pure rfl
  | getattr path =>
    refine .bind a1fsGetattr_times ?_
    rintro ⟨r, st⟩ _ rfl
    exact .pure rfl
  | readdir path =>
    refine .bind a1fsReaddir_times ?_
    rintro ⟨r, names⟩ _ rfl
    exact .pure rfl
  | read path size offset =>
    refine .bind a1fsRead_times ?_
    rintro ⟨r, buf⟩ _ rfl
    exact .pure rfl
  | utimens path times =>
    refine .bind a1fsUtimens_times ?_
    rintro ⟨fs1, r⟩ _ rfl
    exact .pure rfl
  | change call =>
    refine .bind exec_times ?_
    rintro ⟨fs1, r⟩ _ rfl
    exact .pure rfl

end Requests

def epoch : Timespec := ⟨0, 0⟩

/-- The state with all of its modification times cleared. -/
def FsCtx.timeless (fs : FsCtx) : FsCtx := fs.mapTimes fun _ => epoch

theorem timeless_setInode {fs : FsCtx} {i : Nat} {t : Timespec} :
    (fs.setInode i { fs.itable i with iMtime := t }).timeless = fs.timeless := by
  refine FsCtx.eq_mapTimes rfl rfl rfl rfl (fun k => ?_) rfl
  simp only [FsCtx.timeless, FsCtx.mapTimes, FsCtx.setInode]
  split
  · rename_i own
    rw [own]
    rfl
  · rfl

end ExtentFs
