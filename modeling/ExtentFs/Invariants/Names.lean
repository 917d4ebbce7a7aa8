import ExtentFs.Invariants.Sound

namespace ExtentFs

open Base

/-- Components lead from the root through entries in use to an inode. -/
def FsCtx.Leads (fs : FsCtx) (tokens : List (List Byte)) (j : Nat) : Prop := Walk fs.Edge 0 tokens j

def Call.Removes (call : Call) : Prop := (∃ path, call = .unlink path) ∨ ∃ path, call = .rmdir path

structure FsCtx.Adds (fs fs' : FsCtx) (tokens : List (List Byte)) (mode : BitVec 32) (ino : Nat) :
    Prop where
  dead : fs.live ino = false
  alive : fs'.live ino = true
  mode : (fs'.itable ino).mode = mode
  others : ∀ j, j ≠ ino → fs'.live j = fs.live j
  paths : ∀ whole j, fs'.Leads whole j ↔ fs.Leads whole j ∨ (whole = tokens ∧ j = ino)

structure FsCtx.Deletes (fs fs' : FsCtx) (tokens : List (List Byte)) (ino : Nat) : Prop where
  named : fs.Leads tokens ino
  dead : fs'.live ino = false
  others : ∀ j, j ≠ ino → fs'.live j = fs.live j
  paths : ∀ whole j, fs'.Leads whole j ↔ fs.Leads whole j ∧ whole ≠ tokens

section Steps

variable {fs fs' : FsCtx} {i j p ino addr : Nat} {path : CString} {mode : BitVec 32} {now : Timespec}
  {tokens : List (List Byte)}

theorem Tree.leads_same (edges : ∀ d name j, fs'.Edge d name j ↔ fs.Edge d name j) :
    fs'.Leads tokens j ↔ fs.Leads tokens j := by
  constructor
  · exact fun walk => walk.mono fun d name j edge => (edges d name j).mp edge
  · exact fun walk => walk.mono fun d name j edge => (edges d name j).mpr edge

theorem Tree.not_leads (tree : Tree fs) (creatable : Creatable fs path) :
    ¬ fs.Leads (strtok path.bytes) j := by
  intro leads
  obtain ⟨p, walk, -, -, -, split, absent⟩ := tree.parent_of_creatable creatable
  rw [split] at leads
  obtain ⟨q, walk', edge⟩ := Walk.concat_iff.mp leads
  obtain rfl := tree.forest.end_unique walk walk'
  exact absent j edge

theorem Tree.leads_split (tree : Tree fs) (shaped : WellShaped path) (leads : fs.Leads (strtok path.bytes) j)
    (edge : fs.Edge p (strrchr path.bytes) j) :
    strtok path.bytes = (strtok path.bytes).dropLast ++ [strrchr path.bytes] := by
  apply strtok_strrchr shaped
  intro none
  rw [none] at leads
  exact (tree.linked _ _ _ edge).2 (Walk.nil_iff.mp leads)

theorem FsCtx.Makes.inodes (makes : fs.Makes fs' path mode now ino p) (tree : Tree fs) :
    fs'.itable ino = createInode (fs.itable ino) mode now ∧
      ∀ j, j ≠ ino → (fs'.itable j).mode = (fs.itable j).mode := by
  have differ : ino ≠ p := (live_ne_free (tree.alive_of_walk makes.parent) makes.clear).symm
  have new : (fs.takeInode ino mode now).itable ino = createInode (fs.itable ino) mode now :=
    FsCtx.setInode_self
  have old (j : Nat) (other : j ≠ ino) : (fs.takeInode ino mode now).itable j = fs.itable j :=
    FsCtx.setInode_other other
  obtain ⟨fs1, addr, block, enters⟩ := makes.steps
  have taken : fs1.itable ino = (fs.takeInode ino mode now).itable ino ∧
      ∀ j, (fs1.itable j).mode = ((fs.takeInode ino mode now).itable j).mode := by
    rcases block with rfl | ⟨-, block, step⟩
    · exact ⟨rfl, fun _ => rfl⟩
    · exact ⟨step.others ino differ, step.modes⟩
  refine ⟨?_, fun j other => ?_⟩
  · rw [enters.others ino differ, taken.1, new]
  · rw [enters.modes, taken.2, old j other]

theorem FsCtx.Makes.adds (makes : fs.Makes fs' path mode now ino p) (tree : Tree fs) :
    fs.Adds fs' (strtok path.bytes) mode ino := by
  have parent := tree.alive_of_walk makes.parent
  obtain ⟨dead, none⟩ := tree.dead_of_free makes.clear
  have differ : ino ≠ p := (live_ne_free parent makes.clear).symm
  have edges := makes.edge tree
  obtain ⟨fs1, addr, enters, -, -, live⟩ := makes.before tree
  refine ⟨dead, ?_, ?_, fun j other => ?_, fun whole j => ?_⟩
  · rw [enters.live]
    exact enters.target.1
  · rw [(makes.inodes tree).1]
    rfl
  · rw [enters.live, live, takeInode_live_other other]
  · rw [makes.split]
    apply tree.forest.add makes.parent edges
    intro name k edge
    rcases (edges ino name k).mp edge with old | ⟨same, -⟩
    · exact no_edge none old
    · exact differ same

theorem FsCtx.Makes.room (makes : fs.Makes fs' path mode now ino p)
    (full : (fs.takeInode ino mode now).findIno ((fs.takeInode ino mode now).itable p) (-1) = .ok none) :
    (fs.takeInode ino mode now).StartsExtent p 1 ∧ (fs.takeInode ino mode now).HasBlock := by
  obtain ⟨fs1, addr, rfl | ⟨-, block, step⟩, enters⟩ := makes.steps
  · have free : ¬ (fs.takeInode ino mode now).dentryIno addr ≠ -1 := by
      rw [← inUse_iff, enters.enters.free]
      exact Bool.false_ne_true
    exact absurd (findIno_none full addr enters.enters.member) free
  · exact ⟨step.starts, block, step.found, step.inside⟩

theorem FsCtx.RemoveStep.deletes (step : fs.RemoveStep fs' p addr ino (strrchr path.bytes))
    (tree : Tree fs) (walk : Walk fs.Edge 0 (strtok path.bytes).dropLast p)
    (split : strtok path.bytes = (strtok path.bytes).dropLast ++ [strrchr path.bytes]) :
    fs.Deletes fs' (strtok path.bytes) ino := by
  have edge := step.old tree
  refine ⟨?_, step.dead, step.live, fun whole j => ?_⟩
  · rw [split]
    exact Walk.concat_iff.mpr ⟨p, walk, edge⟩
  · rw [split]
    exact tree.forest.remove walk edge (step.edge tree) step.childless

end Steps

end ExtentFs
