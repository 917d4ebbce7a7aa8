import ExtentFs.Guarantees.Entries

namespace ExtentFs

open Base Base.Bytes

/-- An inode, the bytes of its blocks and their bits stay as they are. -/
structure FsCtx.Keeps (fs fs' : FsCtx) (i : Nat) : Prop where
  inode : fs'.itable i = fs.itable i
  contents : ∀ x, x / 4096 ∈ (fs.itable i).blocks → fs'.data x = fs.data x
  bits : ∀ b ∈ (fs.itable i).blocks, fs'.blockBits.test b = fs.blockBits.test b

/-- A change on a path leaves alone the live inodes other than its own and its parent, and the
    entries of the parent with other names. -/
structure Isolated (fs : FsCtx) (path : CString) (fs' : FsCtx) : Prop where
  others : ∀ j, fs.live j = true → fs.resolve path ≠ some j → fs.parent path ≠ some j → fs.Keeps fs' j
  siblings : ∀ p, fs.parent path = some p → ∀ a ∈ (fs.itable p).entries, fs.inUse a = true →
    ¬ fs.Named a (strrchr path.bytes) → a ∈ (fs'.itable p).entries ∧ fs.SameEntry fs' a

section Keeps

variable {fs fs' fs'' : FsCtx} {i j p ino block addr : Nat} {name : List Byte} {path : CString}

theorem FsCtx.Keeps.refl : fs.Keeps fs j := ⟨rfl, fun _ _ => rfl, fun _ _ => rfl⟩

theorem FsCtx.Keeps.trans (first : fs.Keeps fs' j) (second : fs'.Keeps fs'' j) : fs.Keeps fs'' j := by
  obtain ⟨inode, contents, bits⟩ := second
  rw [first.inode] at inode contents bits
  refine ⟨inode, fun x inside => ?_, fun b member => ?_⟩
  · rw [contents x inside]
    exact first.contents x inside
  · rw [bits b member]
    exact first.bits b member

theorem FsCtx.FileStep.keeps (step : fs.FileStep fs' i) (tree : Tree fs) (differ : j ≠ i) :
    fs.Keeps fs' j := by
  have kept := step.others j differ
  have old := tree.exclusive.apart j i differ
  have new := step.exclusive.apart j i differ
  simp only [kept] at new
  refine ⟨kept, fun x inside => ?_, fun b member => step.bits b (old member) (new member)⟩
  exact step.changed.disjoint (List.disjoint_append_right.mpr ⟨old, new⟩) inside

theorem FsCtx.BlockStep.keeps (step : fs.BlockStep fs' p block) (differ : j ≠ p) :
    fs.Keeps fs' j := by
  have fresh := step.uncovered j
  refine ⟨step.others j differ, fun x inside => ?_, fun b member => ?_⟩
  · exact step.changed.disjoint (List.disjoint_singleton.mpr fresh) inside
  · apply step.bits
    rintro rfl
    exact fresh member

theorem FsCtx.EnterStep.keeps (step : fs.EnterStep fs' p addr ino name) (tree : Tree fs)
    (differ : j ≠ p) : fs.Keeps fs' j := by
  refine ⟨step.others j differ, fun x inside => ?_, fun b _ => by rw [step.bits]⟩
  exact step.changed.disjoint (tree.exclusive.apart j p differ) inside

theorem FsCtx.RemoveStep.keeps (step : fs.RemoveStep fs' p addr ino name) (tree : Tree fs)
    (differ : j ≠ p) (other : j ≠ ino) : fs.Keeps fs' j := by
  refine ⟨step.others j differ other, fun x inside => ?_, fun b _ => by rw [step.bits]⟩
  exact step.changed.disjoint (tree.exclusive.apart j p differ) inside

theorem Tree.flipBlocks_keeps (tree : Tree fs) {l : List Nat} {flipType : Nat}
    (mine : l ⊆ (fs.itable i).blocks) (differ : j ≠ i) : fs.Keeps (fs.flipBlocks l flipType) j := by
  refine ⟨rfl, fun _ _ => rfl, fun b member => ?_⟩
  rw [FsCtx.flipBlocks_blockBits]
  apply Bitmap.test_flipAll_of_not_mem
  exact fun flipped => tree.exclusive.apart j i differ member (mine flipped)

theorem Tree.takeInode_keeps (free : fs.inodeBits.test ino = false) (alive : fs.live j = true)
    {mode : BitVec 32} {now : Timespec} : fs.Keeps (fs.takeInode ino mode now) j := by
  obtain ⟨differ, -⟩ : j ≠ ino ∧ (fs.takeInode ino mode now).live j = true :=
    takeInode_live free alive
  have kept : (fs.takeInode ino mode now).itable j = fs.itable j := FsCtx.setInode_other differ
  exact ⟨kept, fun _ _ => rfl, fun _ _ => rfl⟩

end Keeps

section Isolated

variable {fs fs' : FsCtx} {i j p ino addr : Nat} {path : CString} {mode : BitVec 32} {now : Timespec}

theorem Isolated.refl : Isolated fs path fs :=
  ⟨fun _ _ _ _ => .refl, fun _ _ _ member _ _ => ⟨member, fun _ _ => rfl⟩⟩

theorem FsCtx.FileStep.isolated (step : fs.FileStep fs' i) (tree : Tree fs)
    (regular : sIsreg (fs.itable i).mode = true) (found : fs.resolve path = some i) :
    Isolated fs path fs' := by
  constructor
  · intro j _ own _
    apply step.keeps tree
    rintro rfl
    exact own found
  · intro p parent a member _ _
    have dir := (Option.filter_eq_some_iff.mp parent).2
    have differ : p ≠ i := by
      rintro rfl
      rw [not_regular dir] at regular
      cases regular
    have same := step.sameDirectory tree differ
    rw [same.entries]
    exact ⟨member, same.bytes a member⟩

theorem Tree.flipBlocks_isolated (tree : Tree fs) {l : List Nat} {flipType : Nat}
    (mine : l ⊆ (fs.itable i).blocks) (found : fs.resolve path = some i) :
    Isolated fs path (fs.flipBlocks l flipType) := by
  refine ⟨fun j _ own _ => tree.flipBlocks_keeps mine ?_, fun _ _ _ member _ _ => ⟨member, fun _ _ => rfl⟩⟩
  rintro rfl
  exact own found

theorem FsCtx.RemoveStep.isolated {l : List Nat} {flipType : Nat}
    (step : (fs.flipBlocks l flipType).RemoveStep fs' p addr i (strrchr path.bytes)) (tree : Tree fs)
    (steady : Steady fs) (shaped : WellShaped path) (mine : l ⊆ (fs.itable i).blocks)
    (found : fs.resolve path = some i) (walk : Walk fs.Edge 0 (strtok path.bytes).dropLast p) :
    Isolated fs path fs' := by
  have flipped : Tree (fs.flipBlocks l flipType) := tree.flipBlocks
  have parent : fs.parent path = some p := (tree.parent_iff steady shaped).mpr ⟨walk, step.directory⟩
  constructor
  · intro j _ own other
    have differ : j ≠ i := by
      rintro rfl
      exact own found
    have differ' : j ≠ p := by
      rintro rfl
      exact other parent
    exact (tree.flipBlocks_keeps mine differ).trans (step.keeps flipped differ' differ)
  · intro q found a member _ unnamed
    rw [parent] at found
    cases found
    have other : a ≠ addr := by
      rintro rfl
      exact unnamed step.clears.named
    rw [step.clears.entries]
    exact ⟨member, step.clears.bytes a member other⟩

theorem FsCtx.Makes.isolated (makes : fs.Makes fs' path mode now ino p) (tree : Tree fs)
    (creatable : Creatable fs path) : Isolated fs path fs' := by
  obtain ⟨q, walk, parent, -⟩ := tree.parent_of_creatable creatable
  obtain rfl := tree.forest.end_unique makes.parent walk
  have alive := tree.alive_of_walk makes.parent
  have taken : Tree (fs.takeInode ino mode now) := tree.takeInode makes.clear makes.inside
  have same : fs.SameDirectory (fs.takeInode ino mode now) p :=
    tree.takeInode_same makes.clear mode now p
  obtain ⟨fs1, addr, block, enters⟩ := makes.steps
  -- the directory's new block is behind its entries and nobody else's
  have before : Tree fs1 ∧ (∀ j, j ≠ p → (fs.takeInode ino mode now).Keeps fs1 j) ∧
      ∀ a ∈ ((fs.takeInode ino mode now).itable p).entries,
        a ∈ (fs1.itable p).entries ∧ (fs.takeInode ino mode now).SameEntry fs1 a := by
    rcases block with rfl | ⟨-, block, step⟩
    · exact ⟨taken, fun _ _ => .refl, fun a member => ⟨member, fun _ _ => rfl⟩⟩
    · refine ⟨step.tree taken (takeInode_live makes.clear alive).2, fun j differ => step.keeps differ,
        fun a member => ⟨?_, step.adds.bytes a member⟩⟩
      rw [step.adds.entries]
      exact List.mem_append_left _ member
  obtain ⟨tree1, others, entries⟩ := before
  constructor
  · intro j live _ other
    have differ : j ≠ p := by
      rintro rfl
      exact other parent
    exact ((Tree.takeInode_keeps makes.clear live).trans (others j differ)).trans
      (enters.keeps tree1 differ)
  · intro q found a member used _
    rw [parent] at found
    cases found
    rw [← same.entries] at member
    obtain ⟨member1, bytes1⟩ := entries a member
    rw [same.entries] at member
    have bytes := same.bytes a member
    have other : a ≠ addr := by
      rintro rfl
      rw [← bytes.inUse, ← bytes1.inUse, enters.enters.free] at used
      cases used
    rw [enters.enters.entries]
    refine ⟨member1, fun k bound => ?_⟩
    rw [enters.enters.bytes a member1 other k bound, bytes1 k bound, bytes k bound]

theorem Tree.isolated (tree : Tree fs) (steady : Steady fs) {event : Event} (sound : Sound fs event)
    (step : a1fs.Step fs event fs') : Isolated fs event.call.path fs' := by
  cases tree.effect steady sound step with
  | refused new same => exact same ▸ .refl
  | @leaks call env mode ino p new creatable leaks =>
    rw [leaks.result]
    refine ⟨fun j live _ _ => Tree.takeInode_keeps leaks.clear live, fun p _ a member _ _ => ?_⟩
    have same : fs.SameDirectory (fs.takeInode ino mode env.now) p :=
      tree.takeInode_same leaks.clear mode env.now p
    rw [same.entries]
    exact ⟨member, same.bytes a member⟩
  | makes new creatable makes => exact makes.isolated tree creatable
  | unlinks found walk edge removed =>
    exact removed.isolated tree steady sound.documented.1 (List.Subset.refl _) found walk
  | stops found stops result =>
    rw [result]
    exact tree.flipBlocks_isolated (slotBlocks_sublist stops.1.1).subset found
  | notEmpty same => exact same ▸ .refl
  | @removes path env i p addr found walk edge removed =>
    have flipped : (fs.flipBlocks [] 0).RemoveStep fs' p addr i (strrchr path.bytes) := by
      rw [FsCtx.flipBlocks_nil]
      exact removed
    exact flipped.isolated tree steady sound.documented.1 (List.nil_subset _) found walk
  | truncates found regular alive small truncated changed => exact changed.isolated tree regular found
  | writes found regular alive wrote changed => exact changed.isolated tree regular found

end Isolated

/-- A call leaves other files alone while no call changes the blocks of another inode. -/
theorem calls_isolated {fs fs' : FsCtx} {event : Event} (run : a1fs.Reaches Sound fs)
    (sound : Sound fs event) (step : a1fs.Step fs event fs') : Isolated fs event.call.path fs' := by
  obtain ⟨steady, tree⟩ := tree_of_reaches run fun _ _ sound => sound
  exact tree.isolated steady sound step

theorem calls_isolated_run : ∃ fs fs', enteredRun = some fs ∧
    a1fs.Step fs ⟨.truncate pathBC 5000, quiet, 0⟩ fs' ∧ Isolated fs pathBC fs' := by
  have grows : ∃ fs ∈ enteredRun, Sound fs ⟨.truncate pathBC 5000, quiet, 0⟩ ∧
      ∃ out, Call.exec quiet 10 fs (.truncate pathBC 5000) = .ok out ∧ out.2 = 0 := by
    decide +kernel
  obtain ⟨fs, run, sound, ⟨fs', r⟩, returned, rfl⟩ := grows
  have step : a1fs.Step fs ⟨.truncate pathBC 5000, quiet, 0⟩ fs' := ⟨10, returned⟩
  exact ⟨fs, fs', run, step, calls_isolated (runCalls_reaches (.initial device_initial) run) sound step⟩

/-- A file has given up a block that it still covers, and a directory has got it. -/
def recoveredRun : Option FsCtx :=
  runCalls (fun fs event => Documented fs event.call) quiet 10 device
    [.create pathA regularMode, .truncate pathA 8192, .truncate pathA 100, .mkdir pathB 0,
      .create pathBC regularMode]

theorem calls_isolated_fails : ∃ fs event fs', a1fs.Reaches (fun fs event => Documented fs event.call) fs ∧
    Documented fs event.call ∧ a1fs.Step fs event fs' ∧ ¬ Isolated fs event.call.path fs' := by
  have overwrites : ∃ fs ∈ recoveredRun, Documented fs (.truncate pathA 8192) ∧
      fs.live 2 = true ∧ fs.resolve pathA ≠ some 2 ∧ fs.parent pathA ≠ some 2 ∧
      ∃ out, Call.exec quiet 10 fs (.truncate pathA 8192) = .ok out ∧ out.2 = 0 ∧
        ∃ b ∈ (fs.itable 2).blocks, out.1.data (4096 * b + 256) ≠ fs.data (4096 * b + 256) := by
    decide +kernel
  obtain ⟨fs, run, documented, alive, own, parent, ⟨fs', r⟩, returned, rfl, b, member, differ⟩ :=
    overwrites
  refine ⟨fs, ⟨.truncate pathA 8192, quiet, 0⟩, fs',
    runCalls_reaches (.initial device_initial) run, documented, ⟨10, returned⟩, ?_⟩
  intro isolated
  refine differ ((isolated.others 2 alive own parent).contents _ ?_)
  have block : (4096 * b + 256) / 4096 = b := by omega
  rwa [block]

end ExtentFs
