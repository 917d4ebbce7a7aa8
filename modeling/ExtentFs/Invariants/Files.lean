import ExtentFs.Effects.Slots
import ExtentFs.Invariants.Conditions
import ExtentFs.Invariants.Steady

namespace ExtentFs

open Base

theorem not_regular {mode : BitVec 32} (dir : sIsdir mode = true) : sIsreg mode = false := by
  rw [sIsdir, beq_iff_eq] at dir
  rw [sIsreg, dir]
  decide

theorem Resized.frame {fs fs' : FsCtx} {i : Nat} {size : Int} {now : Timespec}
    (effect : Resized fs i size now fs') : (∀ j, j ≠ i → fs'.itable j = fs.itable j) ∧
      (∀ j, fs'.live j = fs.live j) ∧ (fs'.itable i).mode = (fs.itable i).mode := by
  cases effect with
  | touched touches => exact ⟨touches.others, fun j => touches.live, touches.inode.mode⟩
  | @grown n start inode blocks growth bits inside touches =>
    refine ⟨fun j differ => ?_, fun j => touches.live, ?_⟩
    · rw [touches.others j differ, FsCtx.flipBlocks_itable, FsCtx.setInode_other differ]
    · rw [touches.inode.mode, FsCtx.flipBlocks_itable, FsCtx.setInode_self]
      cases growth with
      | append => rfl
      | attach => rfl
  | shrunk shrinks bits touches =>
    refine ⟨fun j differ => ?_, fun j => touches.live, ?_⟩
    · rw [touches.others j differ, FsCtx.flipBlocks_itable, FsCtx.setInode_other differ]
    · rw [touches.inode.mode, shrunk_itable, shrunkInode]
      split <;> rfl

/-- The truncation that a call makes; after it only data changes. -/
theorem Call.exec_resize {fs fs' : FsCtx} {call : Call} {env : Env} {fuel i : Nat} {size r : Int}
    (walk : getInodeNum fs call.path 0 = .ok (i : Int)) (asked : call.resizeTo (fs.itable i) = some size)
    (h : call.exec env fuel fs = .ok (fs', r)) :
    ∃ fs1 t data, a1fsTruncate env fuel fs call.path size = .ok (fs1, t) ∧
      fs' = { fs1 with data := data } := by
  cases call with
  | truncate path n =>
    cases asked
    exact ⟨fs', r, fs'.data, h, rfl⟩
  | write path buf offset =>
    rw [Call.path] at walk
    rcases a1fsWrite_split h with ⟨-, j, missing, walk'⟩ | ⟨j, walk', -, fs1, resize, data, rfl⟩
    · rw [walk] at walk'
      cases walk'
      omega
    · rw [walk] at walk'
      obtain rfl : i = j := by
        cases walk'
        rfl
      rw [Call.resizeTo] at asked
      split at asked
      · rename_i beyond
        cases asked
        rw [if_pos beyond] at resize
        obtain ⟨t, resize⟩ := resize
        exact ⟨fs1, t, data, resize, rfl⟩
      · cases asked
  | create | mkdir | unlink | rmdir => cases asked

/-- A property of files that depends on the size and the extents and holds of an empty file. -/
structure FileProperty (P : A1fsInode → Prop) : Prop where
  created : ∀ inode mode now, P (createInode inode mode now)
  ignores : ∀ inode inode', inode'.size = inode.size → inode'.iExtent = inode.iExtent →
    inode'.lastUsedExtent = inode.lastUsedExtent → P inode → P inode'

def FsCtx.Files (fs : FsCtx) (P : A1fsInode → Prop) : Prop :=
  ∀ i, fs.live i = true → sIsreg (fs.itable i).mode = true → P (fs.itable i)

/-- The new entries of a call go to an inode that is a directory. -/
def EntersDirectory (fs : FsCtx) (event : Event) : Prop :=
  OnEntry fs event.env event.call fun fs _ p => sIsdir (fs.itable p).mode = true

instance (fs : FsCtx) (event : Event) : Decidable (EntersDirectory fs event) :=
  inferInstanceAs (Decidable (OnEntry _ _ _ _))

theorem formatted_directory {blocks nInodes d i : Nat} {now : Timespec}
    (alive : (formatted blocks nInodes d now).live i = true) :
    sIsreg ((formatted blocks nInodes d now).itable i).mode = false := by
  have marked := (live_iff.mp alive).2
  rw [formatted_marks, decide_eq_true_iff] at marked
  have root : (formatted blocks nInodes d now).itable i = rootInode now := if_pos marked
  have dir : sIsdir (rootInode now).mode = true := by
    change sIsdir (sIfdir ||| 0o777#32) = true
    decide
  rw [root, not_regular dir]

namespace FsCtx.Files

variable {fs fs' : FsCtx} {P : A1fsInode → Prop} {i p ino fuel : Nat} {now : Timespec} {env : Env}
  {path : CString} {r : Int}

theorem formatted {blocks nInodes d : Nat} : (formatted blocks nInodes d now).Files P := by
  intro i alive regular
  rw [formatted_directory alive] at regular
  cases regular

theorem directory (files : fs.Files P) (dir : sIsdir (fs.itable p).mode = true)
    (mode : (fs'.itable p).mode = (fs.itable p).mode)
    (others : ∀ j, j ≠ p → fs'.itable j = fs.itable j) (live : ∀ j, fs'.live j = fs.live j) :
    fs'.Files P := by
  intro j alive regular
  rw [live] at alive
  by_cases same : j = p
  · rw [same, mode, not_regular dir] at regular
    cases regular
  · rw [others j same] at regular ⊢
    exact files j alive regular

theorem takeInode (files : fs.Files P) (property : FileProperty P) {mode : BitVec 32} :
    (fs.takeInode i mode now).Files P := by
  intro j alive regular
  by_cases same : j = i
  · have new : (fs.takeInode i mode now).itable i = createInode (fs.itable i) mode now :=
      FsCtx.setInode_self
    rw [same, new]
    exact property.created _ _ _
  · have kept : (fs.takeInode i mode now).itable j = fs.itable j := FsCtx.setInode_other same
    rw [kept] at regular ⊢
    rw [takeInode_live_other same] at alive
    exact files j alive regular

theorem mayAdd (files : fs.Files P) (dir : sIsdir (fs.itable p).mode = true) {needed : Prop}
    (added : fs.MayAdd p now needed fs') :
    fs'.Files P ∧ sIsdir (fs'.itable p).mode = true := by
  rcases added with ⟨-, rfl⟩ | ⟨-, block, inode, growth, -, rfl⟩
  · exact ⟨files, dir⟩
  · have mode : inode.mode = (fs.itable p).mode := by
      cases growth with
      | append => rfl
      | attach => rfl
    have self : ((fs.grown p inode .directory).flipBlocks [block] 1).itable p = inode :=
      FsCtx.setInode_self
    have mode' : (((fs.grown p inode .directory).flipBlocks [block] 1).itable p).mode =
        (fs.itable p).mode := by rw [self, mode]
    refine ⟨files.directory dir mode' (fun j differ => FsCtx.setInode_other differ) fun j => rfl, ?_⟩
    rwa [mode']

theorem newEntry (files : fs.Files P) (property : FileProperty P) {call : Call} {mode : BitVec 32}
    {noParent : Int} (new : call.newMode = some mode)
    (enters : OnEntry fs env call fun fs _ p => sIsdir (fs.itable p).mode = true)
    (h : ExtentFs.newEntry env fs call.path mode noParent = .ok (fs', r)) : fs'.Files P := by
  rcases newEntry_ok h with ⟨-, rfl, -⟩ | ⟨ino, free, _, rfl, ⟨-, rfl, -⟩ |
    ⟨p, walk, inside, added, add, -⟩⟩
  · exact files
  · exact files.takeInode property
  · have taken : (fs.takeInode ino mode env.now).Files P := files.takeInode property
    have dir := enters.holds new free walk
    rcases addDentry_ok add with ⟨-, rfl, -⟩ | ⟨-, fs1, addr, added, search, write⟩
    · exact taken
    · obtain ⟨files1, dir1⟩ := taken.mayAdd dir added
      have touches := writeDentry_touches write
      exact files1.directory dir1 touches.inode.mode touches.others fun j => touches.live

theorem setInode (files : fs.Files P) (property : FileProperty P) {inode : A1fsInode}
    (mode : inode.mode = (fs.itable i).mode) (size : inode.size = (fs.itable i).size)
    (extents : inode.iExtent = (fs.itable i).iExtent)
    (last : inode.lastUsedExtent = (fs.itable i).lastUsedExtent) : (fs.setInode i inode).Files P := by
  intro j alive regular
  by_cases same : j = i
  · subst same
    rw [FsCtx.setInode_self] at regular ⊢
    rw [mode] at regular
    exact property.ignores _ _ size extents last (files j alive regular)
  · rw [FsCtx.setInode_other same] at regular ⊢
    exact files j alive regular

theorem removed (files : fs.Files P) (property : FileProperty P)
    (effect : Removed fs path ino now fs') : fs'.Files P := by
  have drop (marked : fs.inodeBits.test ino = true) : (fs.dropInode ino now).Files P := by
    intro j alive regular
    by_cases same : j = ino
    · exfalso
      have flipped : (fs.inodeBits.flip ino).test j = true := (live_iff.mp alive).2
      rw [same, Bitmap.test_flip, marked] at flipped
      simp at flipped
    · rw [dropInode_live same] at alive
      have kept : (fs.dropInode ino now).itable j = fs.itable j := FsCtx.setInode_other same
      rw [kept] at regular ⊢
      exact files j alive regular
  cases effect with
  | unmarked clear result =>
    rw [result]
    intro j alive regular
    by_cases same : j = ino
    · have marked := (live_iff.mp alive).2
      rw [same, FsCtx.setInode_inodeBits, clear] at marked
      cases marked
    · rw [FsCtx.setInode_other same] at regular ⊢
      exact files j alive regular
  | dropped marked result => exact result ▸ drop marked
  | cleared marked walk inside search result =>
    rw [result]
    exact (drop marked).setInode property rfl rfl rfl rfl

theorem resized (files : fs.Files P) {size : Int} (effect : Resized fs i size now fs')
    (kept : fs.live i = true → sIsreg (fs.itable i).mode = true → P (fs'.itable i)) :
    fs'.Files P := by
  obtain ⟨others, live, mode⟩ := effect.frame
  intro j alive regular
  rw [live] at alive
  by_cases same : j = i
  · subst same
    rw [mode] at regular
    exact kept alive regular
  · rw [others j same] at regular ⊢
    exact files j alive regular

/-- A call keeps a property of the files when its truncations do. -/
theorem step (files : fs.Files P) (property : FileProperty P) (steady : Steady fs) {call : Call}
    (enters : OnEntry fs env call fun fs _ p => sIsdir (fs.itable p).mode = true)
    (truncates : ∀ (i : Nat) (size : Int), getInodeNum fs call.path 0 = .ok (i : Int) →
      call.resizeTo (fs.itable i) = some size → fs.live i = true →
      sIsreg (fs.itable i).mode = true → ∀ fs1 t,
        a1fsTruncate env fuel fs call.path size = .ok (fs1, t) → P (fs1.itable i))
    (h : call.exec env fuel fs = .ok (fs', r)) : fs'.Files P := by
  cases call with
  | create path mode =>
    have new : (Call.create path mode).newMode = some mode := rfl
    exact files.newEntry property new enters (a1fsCreate_ok.mp h).2
  | mkdir path mode =>
    have new : (Call.mkdir path mode).newMode = some (mode ||| sIfdir) := rfl
    exact files.newEntry property new enters h
  | unlink path =>
    obtain ⟨ino, -, -, visited, rest, -, -, _, rfl, -, ⟨-, remove⟩ | ⟨-, rfl, -⟩⟩ := a1fsUnlink_ok h
    · have freed : (fs.flipBlocks ((fs.itable ino).slotBlocks visited) 0).Files P := files
      exact freed.removed property (removeEntry_removed remove)
    · exact files
  | rmdir path =>
    obtain ⟨ino, -, -, ⟨-, rfl, -⟩ | ⟨-, remove⟩⟩ := a1fsRmdir_ok h
    · exact files
    · exact files.removed property (removeEntry_removed remove)
  | truncate path size =>
    obtain ⟨i, walk, -, resized⟩ := a1fsTruncate_resized steady.shaped.range h
    exact files.resized resized fun alive regular => truncates i size walk rfl alive regular _ _ h
  | write path buf offset =>
    rcases a1fsWrite_split h with ⟨rfl, -⟩ | ⟨i, walk, -, fs1, resize, data, rfl⟩
    · exact files
    · have files1 : fs1.Files P := by
        split at resize
        · rename_i beyond
          obtain ⟨t, resize⟩ := resize
          obtain ⟨j, walk', -, resized⟩ := a1fsTruncate_resized steady.shaped.range resize
          rw [walk] at walk'
          obtain rfl : i = j := by
            cases walk'
            rfl
          exact files.resized resized fun alive regular =>
            truncates i _ walk (if_pos beyond) alive regular _ _ resize
        · rw [resize]
          exact files
      exact files1

end FsCtx.Files

end ExtentFs
