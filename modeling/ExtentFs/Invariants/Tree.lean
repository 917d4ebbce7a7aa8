import ExtentFs.Base.Ownership
import ExtentFs.Effects.Lookups
import ExtentFs.Effects.Write
import ExtentFs.Invariants.Files

namespace ExtentFs

open Base Base.Bytes

/-- No inode covers a block twice or with another, directories list their entries, and the
    entries form a tree of live inodes below the root. -/
structure Tree (fs : FsCtx) : Prop where
  exclusive : Exclusive fun i => (fs.itable i).blocks
  inside : ∀ i, ∀ b ∈ (fs.itable i).blocks, b < fs.dataBlocks ∧ 4096 * b < 2 ^ 31
  dead : ∀ i, fs.live i = false → (fs.itable i).blocks = []
  root : fs.live 0 = true ∧ sIsdir (fs.itable 0).mode = true
  files : ∀ i, sIsreg (fs.itable i).mode = true → (fs.itable i).Measured
  listed : ∀ d, sIsdir (fs.itable d).mode = true → fs.Listed d
  linked : ∀ d name j, fs.Edge d name j → fs.live j = true ∧ j ≠ 0
  once : ∀ d d' name name' j, fs.Edge d name j → fs.Edge d' name' j → d = d' ∧ name = name'
  counted : ∀ d, sIsdir (fs.itable d).mode = true →
    (fs.itable d).numEntries = (fs.itable d).entries.countP fs.inUse

section Edges

variable {fs fs' : FsCtx} {d j : Nat} {name : List Byte}

theorem FsCtx.SameDirectory.edge (same : fs.SameDirectory fs' d)
    (mode : (fs'.itable d).mode = (fs.itable d).mode)
    (listed : sIsdir (fs.itable d).mode = true → fs.Listed d) :
    fs'.Edge d name j ↔ fs.Edge d name j := by
  rw [FsCtx.Edge, mode]
  apply and_congr_right
  intro dir
  exact same.entry (listed dir)

theorem no_edge (none : (fs.itable d).blocks = []) : ¬ fs.Edge d name j := by
  rintro ⟨-, -, a, member, -⟩
  rw [A1fsInode.entries, none] at member
  cases member

theorem FsCtx.Edge.used (edge : fs.Edge d name j) : (fs.itable d).blocks ≠ [] :=
  fun none => no_edge none edge

end Edges

namespace Tree

variable {fs fs' : FsCtx} {i d p j : Nat} {name : List Byte}

theorem closed (tree : Tree fs) : fs.Closed fun _ => True :=
  ⟨fun _ _ _ _ _ => trivial, fun d _ dir => tree.listed d dir⟩

theorem forest (tree : Tree fs) : Forest fs.Edge 0 where
  target_unique := by
    intro i j k name first second
    have listed := tree.listed i first.1
    obtain ⟨a, member, number, named⟩ := listed.entry_iff.mp first.2
    exact listed.target_unique named.2.1 first.2 second.2
  source_unique := fun first second => tree.once _ _ _ _ _ first second
  root_source := fun edge => (tree.linked _ _ _ edge).2 rfl

theorem nodup (tree : Tree fs) (d : Nat) : (fs.itable d).entries.Nodup :=
  entries_nodup (tree.exclusive.nodup d)

theorem readable (tree : Tree fs) (steady : Steady fs) (d : Nat) : fs.Readable (fs.itable d) := by
  refine ⟨(steady.sane d).high, fun b member => ?_⟩
  have inside := tree.inside d b member
  have whole := steady.shaped.whole
  omega

theorem few (tree : Tree fs) (d : Nat) : (fs.itable d).entries.length < 2 ^ 24 := by
  have within : (fs.itable d).blocks ⊆ List.range (2 ^ 19) := by
    intro b member
    have inside := tree.inside d b member
    rw [List.mem_range]
    omega
  have bound := ((tree.exclusive.nodup d).subperm within).length_le
  rw [List.length_range] at bound
  rw [entries_length]
  omega

theorem edge_of_used (tree : Tree fs) (dir : sIsdir (fs.itable d).mode = true) {a : Nat}
    (member : a ∈ (fs.itable d).entries) (used : fs.inUse a = true) :
    ∃ name j, fs.dentryIno a = (j : Nat) ∧ fs.Named a name ∧ fs.Edge d name j := by
  have listed := tree.listed d dir
  obtain ⟨name, named⟩ := listed.named a member used
  have number := listed.number a member used
  have same : fs.dentryIno a = ((fs.dentryIno a).toNat : Nat) := by omega
  exact ⟨name, _, same, named, dir, listed.entry_iff.mpr ⟨a, member, same, named⟩⟩

/-- What the callers resolve is what the walk of the program reaches. -/
theorem resolves (tree : Tree fs) {path : CString} {r : Int} (found : fs.resolve path = some i)
    (h : getInodeNum fs path 0 = .ok r) : r = i :=
  getInodeNum_walk tree.closed trivial
    (walkTo_walk tree.closed trivial (fun _ member => token_noNul member) found) h

end Tree

section Steps

variable {fs fs' : FsCtx} {i p ino block addr : Nat} {name : List Byte}

theorem Tree.edge_same (tree : Tree fs) (modes : ∀ d, (fs'.itable d).mode = (fs.itable d).mode)
    (same : ∀ d, sIsdir (fs.itable d).mode = true → fs.SameDirectory fs' d) (d : Nat)
    (name : List Byte) (j : Nat) : fs'.Edge d name j ↔ fs.Edge d name j := by
  by_cases dir : sIsdir (fs.itable d).mode = true
  · exact (same d dir).edge (modes d) (tree.listed d)
  · rw [FsCtx.Edge, FsCtx.Edge, modes d]
    constructor
    · exact fun edge => absurd edge.1 dir
    · exact fun edge => absurd edge.1 dir

/-- What a change of a file inside its own blocks, old and new, leaves to be shown. -/
structure FsCtx.FileStep (fs fs' : FsCtx) (i : Nat) : Prop where
  mode : (fs'.itable i).mode = (fs.itable i).mode
  others : ∀ j, j ≠ i → fs'.itable j = fs.itable j
  live : ∀ j, fs'.live j = fs.live j
  sizes : fs'.dataBlocks = fs.dataBlocks
  measured : (fs'.itable i).Measured
  exclusive : Exclusive fun i => (fs'.itable i).blocks
  inside : ∀ b ∈ (fs'.itable i).blocks, b < fs.dataBlocks ∧ 4096 * b < 2 ^ 31
  changed : ChangedWithin 4096 fs.data fs'.data ((fs.itable i).blocks ++ (fs'.itable i).blocks)
  bits : ∀ b, b ∉ (fs.itable i).blocks → b ∉ (fs'.itable i).blocks →
    fs'.blockBits.test b = fs.blockBits.test b

namespace FsCtx.FileStep

theorem sameDirectory (step : fs.FileStep fs' i) (tree : Tree fs) {d : Nat} (differ : d ≠ i) :
    fs.SameDirectory fs' d := by
  have kept := step.others d differ
  refine .of_blocks (by rw [kept]) step.changed ?_
  rw [List.disjoint_append_right]
  have apart := step.exclusive.apart d i differ
  simp only [kept] at apart
  exact ⟨tree.exclusive.apart d i differ, apart⟩

theorem modes (step : fs.FileStep fs' i) (j : Nat) : (fs'.itable j).mode = (fs.itable j).mode := by
  by_cases same : j = i
  · rw [same, step.mode]
  · rw [step.others j same]

theorem edge (step : fs.FileStep fs' i) (tree : Tree fs)
    (regular : sIsreg (fs.itable i).mode = true) (d : Nat) (name : List Byte) (j : Nat) :
    fs'.Edge d name j ↔ fs.Edge d name j := by
  refine tree.edge_same step.modes (fun d dir => step.sameDirectory tree ?_) d name j
  rintro rfl
  rw [not_regular dir] at regular
  cases regular

theorem tree (step : fs.FileStep fs' i) (tree : Tree fs) (alive : fs.live i = true)
    (regular : sIsreg (fs.itable i).mode = true) : Tree fs' := by
  have differ (d : Nat) (dir : sIsdir (fs'.itable d).mode = true) : d ≠ i := by
    rintro rfl
    rw [step.mode] at dir
    rw [not_regular dir] at regular
    cases regular
  have edges := step.edge tree regular
  refine ⟨step.exclusive, fun j b member => ?_, fun j dead => ?_, ?_, fun j file => ?_,
    fun d dir => ?_, fun d name j edge => ?_, fun d d' name name' j first second => ?_,
    fun d dir => ?_⟩
  · rw [step.sizes]
    by_cases same : j = i
    · exact step.inside b (same ▸ member)
    · rw [step.others j same] at member
      exact tree.inside j b member
  · rw [step.live] at dead
    have other : j ≠ i := by
      rintro rfl
      rw [alive] at dead
      cases dead
    rw [step.others j other]
    exact tree.dead j dead
  · rw [step.live, step.modes]
    exact tree.root
  · by_cases same : j = i
    · rw [same]
      exact step.measured
    · rw [step.others j same] at file ⊢
      exact tree.files j file
  · have other := differ d dir
    rw [step.modes] at dir
    exact (step.sameDirectory tree other).listed (tree.listed d dir)
  · rw [step.live]
    exact tree.linked d name j ((edges d name j).mp edge)
  · exact tree.once d d' name name' j ((edges d name j).mp first) ((edges d' name' j).mp second)
  · have other := differ d dir
    rw [step.modes] at dir
    rw [(step.sameDirectory tree other).countP, step.others d other]
    exact tree.counted d dir

end FsCtx.FileStep

section Take

variable (tree : Tree fs) (free : fs.inodeBits.test ino = false)

include tree free

theorem Tree.dead_of_free : fs.live ino = false ∧ (fs.itable ino).blocks = [] := by
  have dead : fs.live ino = false := by
    rw [← Bool.not_eq_true, live_iff, free]
    simp
  exact ⟨dead, tree.dead ino dead⟩

theorem Tree.unnamed_of_free (d : Nat) (name : List Byte) : ¬ fs.Edge d name ino := by
  intro edge
  have live := (tree.linked d name ino edge).1
  rw [(tree.dead_of_free free).1] at live
  cases live

variable (mode : BitVec 32) (now : Timespec)

theorem Tree.takeInode_blocks (j : Nat) :
    ((fs.takeInode ino mode now).itable j).blocks = (fs.itable j).blocks := by
  by_cases same : j = ino
  · have new : (fs.takeInode ino mode now).itable ino = createInode (fs.itable ino) mode now :=
      FsCtx.setInode_self
    rw [same, new, (tree.dead_of_free free).2]
    exact A1fsInode.blocks_of_empty rfl
  · have kept : (fs.takeInode ino mode now).itable j = fs.itable j := FsCtx.setInode_other same
    rw [kept]

theorem Tree.takeInode_same (d : Nat) : fs.SameDirectory (fs.takeInode ino mode now) d :=
  .of_blocks (tree.takeInode_blocks free mode now d) (.refl (l := [])) (List.disjoint_nil_right _)

theorem Tree.takeInode_edge (d : Nat) (name : List Byte) (j : Nat) :
    (fs.takeInode ino mode now).Edge d name j ↔ fs.Edge d name j := by
  by_cases same : d = ino
  · subst same
    have none := (tree.dead_of_free free).2
    have none' : ((fs.takeInode d mode now).itable d).blocks = [] := by
      rw [tree.takeInode_blocks free mode now, none]
    constructor
    · exact fun edge => absurd edge (no_edge none')
    · exact fun edge => absurd edge (no_edge none)
  · have kept : (fs.takeInode ino mode now).itable d = fs.itable d := FsCtx.setInode_other same
    exact (tree.takeInode_same free mode now d).edge (by rw [kept]) (tree.listed d)

variable {mode now}

theorem Tree.takeInode (inside : (ino : Int) < fs.sb.sbInodesCount) :
    Tree (fs.takeInode ino mode now) := by
  have blocks := tree.takeInode_blocks free mode now
  have edges := tree.takeInode_edge free mode now
  have new : (fs.takeInode ino mode now).itable ino = createInode (fs.itable ino) mode now :=
    FsCtx.setInode_self
  have kept {j : Nat} (differ : j ≠ ino) :
      (fs.takeInode ino mode now).itable j = fs.itable j := FsCtx.setInode_other differ
  have alive {j : Nat} (live : fs.live j = true) :
      j ≠ ino ∧ (fs.takeInode ino mode now).live j = true := takeInode_live free live
  refine ⟨tree.exclusive.shrink fun j => ?_, fun j b member => ?_, fun j dead => ?_, ?_,
    fun j file => ?_, fun d dir => ?_, fun d name j edge => ?_,
    fun d d' name name' j first second => ?_, fun d dir => ?_⟩
  · rw [blocks]
  · rw [blocks] at member
    exact tree.inside j b member
  · rw [blocks]
    apply tree.dead
    rw [← Bool.not_eq_true] at dead ⊢
    exact fun live => dead (alive live).2
  · obtain ⟨differ, live⟩ := alive tree.root.1
    rw [kept differ]
    exact ⟨live, tree.root.2⟩
  · by_cases same : j = ino
    · rw [same, new]
      exact .of_empty rfl rfl
    · rw [kept same] at file ⊢
      exact tree.files j file
  · by_cases same : d = ino
    · subst same
      apply FsCtx.Listed.of_empty
      rw [A1fsInode.entries, blocks, (tree.dead_of_free free).2]
      rfl
    · rw [kept same] at dir
      exact (tree.takeInode_same free mode now d).listed (tree.listed d dir)
  · obtain ⟨live, other⟩ := tree.linked d name j ((edges d name j).mp edge)
    exact ⟨(alive live).2, other⟩
  · exact tree.once d d' name name' j ((edges d name j).mp first) ((edges d' name' j).mp second)
  · rw [(tree.takeInode_same free mode now d).countP]
    by_cases same : d = ino
    · subst same
      rw [new, A1fsInode.entries, (tree.dead_of_free free).2]
      rfl
    · rw [kept same] at dir ⊢
      exact tree.counted d dir

end Take

/-- A directory gets a block that nobody had, with free entries. -/
structure FsCtx.BlockStep (fs fs' : FsCtx) (p block : Nat) : Prop where
  found : getAvailableBit fs.sb fs.blockBits .data 1 = .ok (block : Int)
  starts : fs.StartsExtent p 1
  directory : sIsdir (fs.itable p).mode = true
  mode : (fs'.itable p).mode = (fs.itable p).mode
  numEntries : (fs'.itable p).numEntries = (fs.itable p).numEntries
  others : ∀ j, j ≠ p → fs'.itable j = fs.itable j
  live : ∀ j, fs'.live j = fs.live j
  sizes : fs'.dataBlocks = fs.dataBlocks
  blocks : (fs'.itable p).blocks = (fs.itable p).blocks ++ [block]
  uncovered : ∀ j, block ∉ (fs.itable j).blocks
  inside : block < fs.dataBlocks ∧ 4096 * block < 2 ^ 31
  changed : ChangedWithin 4096 fs.data fs'.data [block]
  free : ∀ a ∈ blockEntries block, fs'.inUse a = false
  names : ∀ a ∈ blockEntries block, fs'.data (a + 4) = fs.data (a + 4)
  bits : ∀ b, b ≠ block → fs'.blockBits.test b = fs.blockBits.test b

namespace FsCtx.BlockStep

theorem modes (step : fs.BlockStep fs' p block) (j : Nat) :
    (fs'.itable j).mode = (fs.itable j).mode := by
  by_cases same : j = p
  · rw [same, step.mode]
  · rw [step.others j same]

theorem sameDirectory (step : fs.BlockStep fs' p block) {d : Nat} (differ : d ≠ p) :
    fs.SameDirectory fs' d :=
  .of_blocks (by rw [step.others d differ]) step.changed
    (List.disjoint_singleton.mpr (step.uncovered d))

theorem adds (step : fs.BlockStep fs' p block) : fs.AddsEntries fs' p (blockEntries block) := by
  refine ⟨?_, fun a member k bound => ?_, step.free⟩
  · rw [A1fsInode.entries, step.blocks, List.flatMap_append, List.flatMap_singleton,
      A1fsInode.entries]
  · have mine := entry_block member (x := a + k) (by omega) (by omega)
    exact step.changed.disjoint (List.disjoint_singleton.mpr (step.uncovered p)) mine

theorem edge (step : fs.BlockStep fs' p block) (tree : Tree fs)
    (d : Nat) (name : List Byte) (j : Nat) : fs'.Edge d name j ↔ fs.Edge d name j := by
  by_cases same : d = p
  · subst same
    rw [FsCtx.Edge, step.mode]
    apply and_congr_right
    intro dir
    exact step.adds.entry (tree.listed d dir)
  · exact (step.sameDirectory same).edge (step.modes d) (tree.listed d)

theorem tree (step : fs.BlockStep fs' p block) (tree : Tree fs) (alive : fs.live p = true) :
    Tree fs' := by
  have edges := step.edge tree
  refine ⟨?_, fun j b member => ?_, fun j dead => ?_, ?_, fun j file => ?_, fun d dir => ?_,
    fun d name j edge => ?_, fun d d' name name' j first second => ?_, fun d dir => ?_⟩
  · refine tree.exclusive.give (List.nodup_singleton block) (fun j => ?_) step.blocks fun j differ => ?_
    · exact List.disjoint_singleton.mpr (step.uncovered j)
    · rw [step.others j differ]
  · rw [step.sizes]
    by_cases same : j = p
    · rw [same, step.blocks, List.mem_append, List.mem_singleton] at member
      rcases member with old | rfl
      · exact tree.inside p b old
      · exact step.inside
    · rw [step.others j same] at member
      exact tree.inside j b member
  · rw [step.live] at dead
    have other : j ≠ p := by
      rintro rfl
      rw [alive] at dead
      cases dead
    rw [step.others j other]
    exact tree.dead j dead
  · rw [step.live, step.modes]
    exact tree.root
  · rw [step.modes] at file
    by_cases same : j = p
    · rw [same, not_regular step.directory] at file
      cases file
    · rw [step.others j same]
      exact tree.files j file
  · rw [step.modes] at dir
    by_cases same : d = p
    · subst same
      exact step.adds.listed (tree.listed d dir)
    · exact (step.sameDirectory same).listed (tree.listed d dir)
  · rw [step.live]
    exact tree.linked d name j ((edges d name j).mp edge)
  · exact tree.once d d' name name' j ((edges d name j).mp first) ((edges d' name' j).mp second)
  · rw [step.modes] at dir
    by_cases same : d = p
    · subst same
      rw [step.adds.countP, step.numEntries]
      exact tree.counted d dir
    · rw [(step.sameDirectory same).countP, step.others d same]
      exact tree.counted d dir

end FsCtx.BlockStep

/-- A directory gets an entry for an inode that had none. -/
structure FsCtx.EnterStep (fs fs' : FsCtx) (p addr ino : Nat) (name : List Byte) : Prop where
  directory : sIsdir (fs.itable p).mode = true
  enters : fs.Enters fs' p addr ino name
  mode : (fs'.itable p).mode = (fs.itable p).mode
  blocks : (fs'.itable p).blocks = (fs.itable p).blocks
  numEntries : (fs'.itable p).numEntries = (fs.itable p).numEntries + 1
  others : ∀ j, j ≠ p → fs'.itable j = fs.itable j
  live : ∀ j, fs'.live j = fs.live j
  sizes : fs'.dataBlocks = fs.dataBlocks
  changed : ChangedWithin 4096 fs.data fs'.data (fs.itable p).blocks
  target : fs.live ino = true ∧ ino ≠ 0
  unnamed : ∀ d name, ¬ fs.Edge d name ino
  bits : fs'.blockBits = fs.blockBits

namespace FsCtx.EnterStep

theorem modes (step : fs.EnterStep fs' p addr ino name) (j : Nat) :
    (fs'.itable j).mode = (fs.itable j).mode := by
  by_cases same : j = p
  · rw [same, step.mode]
  · rw [step.others j same]

theorem allBlocks (step : fs.EnterStep fs' p addr ino name) (j : Nat) :
    (fs'.itable j).blocks = (fs.itable j).blocks := by
  by_cases same : j = p
  · rw [same, step.blocks]
  · rw [step.others j same]

theorem sameDirectory (step : fs.EnterStep fs' p addr ino name) (tree : Tree fs) {d : Nat}
    (differ : d ≠ p) : fs.SameDirectory fs' d :=
  .of_blocks (step.allBlocks d) step.changed (tree.exclusive.apart d p differ)

theorem edge (step : fs.EnterStep fs' p addr ino name) (tree : Tree fs) (d : Nat)
    (other : List Byte) (j : Nat) :
    fs'.Edge d other j ↔ fs.Edge d other j ∨ (d = p ∧ other = name ∧ j = ino) := by
  by_cases same : d = p
  · subst same
    have dir := step.directory
    rw [FsCtx.Edge, step.mode, step.enters.entry (tree.listed d dir), FsCtx.Edge]
    simp only [dir, true_and]
  · rw [(step.sameDirectory tree same).edge (step.modes d) (tree.listed d)]
    simp [same]

theorem tree (step : fs.EnterStep fs' p addr ino name) (tree : Tree fs) : Tree fs' := by
  have edges := step.edge tree
  have blocks := step.allBlocks
  refine ⟨tree.exclusive.shrink fun j => ?_, fun j b member => ?_, fun j dead => ?_, ?_,
    fun j file => ?_, fun d dir => ?_, fun d other j edge => ?_,
    fun d d' other other' j first second => ?_, fun d dir => ?_⟩
  · rw [blocks]
  · rw [blocks] at member
    rw [step.sizes]
    exact tree.inside j b member
  · rw [step.live] at dead
    rw [blocks]
    exact tree.dead j dead
  · rw [step.live, step.modes]
    exact tree.root
  · rw [step.modes] at file
    have differ : j ≠ p := by
      rintro rfl
      rw [not_regular step.directory] at file
      cases file
    rw [step.others j differ]
    exact tree.files j file
  · rw [step.modes] at dir
    by_cases same : d = p
    · subst same
      exact step.enters.listed (tree.listed d dir)
    · exact (step.sameDirectory tree same).listed (tree.listed d dir)
  · rw [step.live]
    rcases (edges d other j).mp edge with old | ⟨-, -, rfl⟩
    · exact tree.linked d other j old
    · exact step.target
  · rcases (edges d other j).mp first with old | ⟨rfl, rfl, rfl⟩
    · rcases (edges d' other' j).mp second with old' | ⟨-, -, rfl⟩
      · exact tree.once d d' other other' j old old'
      · exact absurd old (step.unnamed d other)
    · rcases (edges d' other' j).mp second with old' | ⟨rfl, rfl, -⟩
      · exact absurd old' (step.unnamed d' other')
      · exact ⟨rfl, rfl⟩
  · rw [step.modes] at dir
    by_cases same : d = p
    · subst same
      rw [step.enters.countP, step.numEntries, tree.counted d dir]
    · rw [(step.sameDirectory tree same).countP, step.others d same]
      exact tree.counted d dir

end FsCtx.EnterStep

/-- An inode without entries of its own is reset and its entry cleared. -/
structure FsCtx.RemoveStep (fs fs' : FsCtx) (p addr ino : Nat) (name : List Byte) : Prop where
  directory : sIsdir (fs.itable p).mode = true
  clears : fs.Clears fs' p addr ino name
  childless : ∀ name j, ¬ fs.Edge ino name j
  mode : (fs'.itable p).mode = (fs.itable p).mode
  blocks : (fs'.itable p).blocks = (fs.itable p).blocks
  numEntries : (fs'.itable p).numEntries + 1 = (fs.itable p).numEntries
  reset : (fs'.itable ino).lastUsedExtent = -1 ∧ (fs'.itable ino).size = 0 ∧
    (fs'.itable ino).numEntries = 0 ∧ (fs'.itable ino).mode = (fs.itable ino).mode
  others : ∀ j, j ≠ p → j ≠ ino → fs'.itable j = fs.itable j
  live : ∀ j, j ≠ ino → fs'.live j = fs.live j
  dead : fs'.live ino = false
  sizes : fs'.dataBlocks = fs.dataBlocks
  changed : ChangedWithin 4096 fs.data fs'.data (fs.itable p).blocks
  bits : fs'.blockBits = fs.blockBits

namespace FsCtx.RemoveStep

theorem old (step : fs.RemoveStep fs' p addr ino name) (tree : Tree fs) : fs.Edge p name ino :=
  ⟨step.directory, (tree.listed p step.directory).entry_iff.mpr
    ⟨addr, step.clears.member, step.clears.number, step.clears.named⟩⟩

theorem differ (step : fs.RemoveStep fs' p addr ino name) (tree : Tree fs) : p ≠ ino := by
  rintro rfl
  exact step.childless _ _ (step.old tree)

theorem modes (step : fs.RemoveStep fs' p addr ino name) (j : Nat) :
    (fs'.itable j).mode = (fs.itable j).mode := by
  by_cases same : j = p
  · rw [same, step.mode]
  · by_cases removed : j = ino
    · rw [removed, step.reset.2.2.2]
    · rw [step.others j same removed]

theorem kept (step : fs.RemoveStep fs' p addr ino name) {j : Nat} (differ : j ≠ ino) :
    (fs'.itable j).blocks = (fs.itable j).blocks := by
  by_cases same : j = p
  · rw [same, step.blocks]
  · rw [step.others j same differ]

theorem gone (step : fs.RemoveStep fs' p addr ino name) : (fs'.itable ino).blocks = [] :=
  A1fsInode.blocks_of_empty step.reset.1

theorem sameDirectory (step : fs.RemoveStep fs' p addr ino name) (tree : Tree fs) {d : Nat}
    (differ : d ≠ p) (differ' : d ≠ ino) : fs.SameDirectory fs' d :=
  .of_blocks (step.kept differ') step.changed (tree.exclusive.apart d p differ)

theorem edge (step : fs.RemoveStep fs' p addr ino name) (tree : Tree fs) (d : Nat)
    (other : List Byte) (j : Nat) :
    fs'.Edge d other j ↔ fs.Edge d other j ∧ ¬ (d = p ∧ other = name ∧ j = ino) := by
  by_cases same : d = p
  · subst same
    have dir := step.directory
    rw [FsCtx.Edge, step.mode, step.clears.entry (tree.listed d dir), FsCtx.Edge]
    simp only [dir, true_and]
  · by_cases removed : d = ino
    · subst removed
      constructor
      · exact fun edge => absurd edge (no_edge step.gone)
      · exact fun edge => absurd edge.1 (step.childless other j)
    · rw [(step.sameDirectory tree same removed).edge (step.modes d) (tree.listed d)]
      simp [same]

theorem tree (step : fs.RemoveStep fs' p addr ino name) (tree : Tree fs) : Tree fs' := by
  have edges := step.edge tree
  have old := step.old tree
  have linked := tree.linked _ _ _ old
  refine ⟨tree.exclusive.drop step.gone fun j differ => step.kept differ, fun j b member => ?_,
    fun j dead => ?_, ?_, fun j file => ?_, fun d dir => ?_, fun d other j edge => ?_,
    fun d d' other other' j first second => ?_, fun d dir => ?_⟩
  · rw [step.sizes]
    by_cases same : j = ino
    · rw [same, step.gone] at member
      cases member
    · rw [step.kept same] at member
      exact tree.inside j b member
  · by_cases same : j = ino
    · rw [same, step.gone]
    · rw [step.live j same] at dead
      rw [step.kept same]
      exact tree.dead j dead
  · rw [step.live 0 (Ne.symm linked.2), step.modes]
    exact tree.root
  · by_cases same : j = ino
    · rw [same]
      exact .of_empty step.reset.1 step.reset.2.1
    · rw [step.modes] at file
      have differ : j ≠ p := by
        rintro rfl
        rw [not_regular step.directory] at file
        cases file
      rw [step.others j differ same]
      exact tree.files j file
  · by_cases removed : d = ino
    · apply FsCtx.Listed.of_empty
      rw [removed, A1fsInode.entries, step.gone]
      rfl
    · rw [step.modes] at dir
      by_cases same : d = p
      · subst same
        exact step.clears.listed (tree.listed d dir)
      · exact (step.sameDirectory tree same removed).listed (tree.listed d dir)
  · obtain ⟨before, apart⟩ := (edges d other j).mp edge
    have target := tree.linked d other j before
    have other : j ≠ ino := by
      rintro rfl
      obtain ⟨rfl, rfl⟩ := tree.once d p other name j before old
      exact apart ⟨rfl, rfl, rfl⟩
    rw [step.live j other]
    exact target
  · exact tree.once d d' other other' j ((edges d other j).mp first).1
      ((edges d' other' j).mp second).1
  · by_cases removed : d = ino
    · rw [removed, step.reset.2.2.1, A1fsInode.entries, step.gone]
      rfl
    · rw [step.modes] at dir
      by_cases same : d = p
      · subst same
        have count := step.clears.countP
        have numEntries := step.numEntries
        rw [tree.counted d dir] at numEntries
        omega
      · rw [(step.sameDirectory tree same removed).countP, step.others d same removed]
        exact tree.counted d dir

end FsCtx.RemoveStep

end Steps

end ExtentFs
