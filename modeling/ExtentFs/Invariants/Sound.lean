import ExtentFs.Invariants.Tree

namespace ExtentFs

open Base Base.Bytes

section Paths

variable {fs fs' : FsCtx} {i p ino : Nat} {path : CString} {name : List Byte} {r : Int}

namespace Tree

theorem alive_of_walk (tree : Tree fs) {tokens : List (List Byte)}
    (walk : Walk fs.Edge 0 tokens i) : fs.live i = true :=
  walk.invariant (P := fun i => fs.live i = true) tree.root.1
    fun _ _ _ edge _ => (tree.linked _ _ _ edge).1

theorem walk_of_resolve (tree : Tree fs) (found : fs.resolve path = some i) :
    Walk fs.Edge 0 (strtok path.bytes) i :=
  walkTo_walk tree.closed trivial (fun _ member => token_noNul member) found

theorem closed_live (tree : Tree fs) : fs.Closed fun i => fs.live i = true :=
  ⟨fun _ _ _ edge _ => (tree.linked _ _ _ edge).1, fun d _ dir => tree.listed d dir⟩

theorem walkTo_iff (tree : Tree fs) (steady : Steady fs) {tokens : List (List Byte)}
    (proper : ∀ token ∈ tokens, 0#8 ∉ token ∧ token ≠ [] ∧ token.length < a1fsNameMax) :
    walkTo fs 0 tokens = some i ↔ Walk fs.Edge 0 tokens i := by
  constructor
  · intro found
    exact walkTo_walk tree.closed trivial (fun token member => (proper token member).1) found
  · intro walk
    apply walk_walkTo tree.closed_live tree.root.1 walk
    · exact fun token member => (proper token member).2
    · exact fun d alive => ⟨(live_iff.mp alive).1, tree.readable steady d⟩

theorem resolve_iff (tree : Tree fs) (steady : Steady fs) (shaped : WellShaped path) :
    fs.resolve path = some i ↔ Walk fs.Edge 0 (strtok path.bytes) i :=
  tree.walkTo_iff steady fun _ member => shaped.proper member

theorem parent_iff (tree : Tree fs) (steady : Steady fs) (shaped : WellShaped path) :
    fs.parent path = some p ↔
      Walk fs.Edge 0 (strtok path.bytes).dropLast p ∧ sIsdir (fs.itable p).mode = true := by
  have proper (token : List Byte) (member : token ∈ (strtok path.bytes).dropLast) :
      0#8 ∉ token ∧ token ≠ [] ∧ token.length < a1fsNameMax :=
    shaped.proper (List.mem_of_mem_dropLast member)
  rw [FsCtx.parent, Option.filter_eq_some_iff, tree.walkTo_iff steady proper]

theorem entry_of_resolve (tree : Tree fs) (shaped : WellShaped path)
    (found : fs.resolve path = some i) (other : i ≠ 0) :
    ∃ p, Walk fs.Edge 0 (strtok path.bytes).dropLast p ∧ fs.Edge p (strrchr path.bytes) i := by
  have walk := tree.walk_of_resolve found
  have some : strtok path.bytes ≠ [] := by
    intro none
    rw [none] at walk
    exact other (Walk.nil_iff.mp walk)
  rw [strtok_strrchr shaped some] at walk
  exact Walk.concat_iff.mp walk

theorem parent_of_creatable (tree : Tree fs) (creatable : Creatable fs path) :
    ∃ p, Walk fs.Edge 0 (strtok path.bytes).dropLast p ∧ fs.parent path = some p ∧
      sIsdir (fs.itable p).mode = true ∧ fs.live p = true ∧
      strtok path.bytes = (strtok path.bytes).dropLast ++ [strrchr path.bytes] ∧
      ∀ j, ¬ fs.Edge p (strrchr path.bytes) j := by
  obtain ⟨shaped, some, parent, absent⟩ := creatable
  obtain ⟨p, parent⟩ := Option.isSome_iff_exists.mp parent
  obtain ⟨walked, dir⟩ := Option.filter_eq_some_iff.mp parent
  have walk : Walk fs.Edge 0 (strtok path.bytes).dropLast p :=
    walkTo_walk tree.closed trivial
      (fun _ member => token_noNul (List.mem_of_mem_dropLast member)) walked
  have split := strtok_strrchr shaped some
  refine ⟨p, walk, parent, dir, tree.alive_of_walk walk, split, fun j edge => ?_⟩
  obtain ⟨n, look, negative⟩ := absent p parent
  have proper : strrchr path.bytes ≠ [] := by
    have member : strrchr path.bytes ∈ strtok path.bytes := by
      rw [split]
      simp
    exact (mem_strtok member).1
  cases found : inodeLookup fs p (strrchr path.bytes) with
  | error e =>
    rw [found] at look
    cases look
  | ok n' =>
    rw [found] at look
    cases look
    obtain ⟨-, same⟩ := inodeLookup_ok found
    rw [(tree.listed p dir).entryNamed_eq proper edge.2] at same
    omega

theorem file (tree : Tree fs) (file : IsFile fs path) : ∃ i, fs.resolve path = some i ∧
    sIsreg (fs.itable i).mode = true ∧ fs.live i = true ∧ i ≠ 0 ∧
    ∃ p, Walk fs.Edge 0 (strtok path.bytes).dropLast p ∧ fs.Edge p (strrchr path.bytes) i := by
  obtain ⟨shaped, i, found, regular⟩ := file
  have other : i ≠ 0 := by
    rintro rfl
    rw [not_regular tree.root.2] at regular
    cases regular
  exact ⟨i, found, regular, tree.alive_of_walk (tree.walk_of_resolve found), other,
    tree.entry_of_resolve shaped found other⟩

theorem uncovered (tree : Tree fs) {b : Nat} (uncovered : fs.Uncovered b) (j : Nat) :
    b ∉ (fs.itable j).blocks := by
  intro mine
  by_cases inside : j < fs.sb.sbInodesCount.toNat
  · exact uncovered j inside mine
  · have dead : fs.live j = false := by
      rw [← Bool.not_eq_true, live_iff]
      omega
    rw [tree.dead j dead] at mine
    cases mine

end Tree

end Paths

section Resize

variable {fs fs' : FsCtx} {i size : Nat} {now : Timespec} {r : Int}

theorem Truncated.frame (truncated : Truncated fs i size now fs' r) :
    (∀ j, j ≠ i → fs'.itable j = fs.itable j) ∧ (∀ j, fs'.live j = fs.live j) ∧
      (fs'.itable i).mode = (fs.itable i).mode ∧ fs'.dataBlocks = fs.dataBlocks := by
  cases truncated with
  | same code equal result =>
    rw [result]
    exact ⟨fun _ _ => rfl, fun _ => rfl, rfl, rfl⟩
  | stuck code used larger full result =>
    rw [result]
    exact ⟨fun _ _ => rfl, fun _ => rfl, rfl, rfl⟩
  | filled code used full result =>
    rw [result]
    refine ⟨fun j differ => FsCtx.setInode_other differ, fun _ => rfl, ?_, rfl⟩
    rw [withSize_itable]
  | grown code asks some found low room reach inside result =>
    rw [result]
    refine ⟨fun j differ => ?_, fun _ => rfl, ?_, rfl⟩
    · rw [FsCtx.withSize, FsCtx.setInode_other differ]
      exact FsCtx.setInode_other differ
    · rw [extended_itable]
      rfl
  | shrunk code used smaller result =>
    rw [result]
    refine ⟨fun j differ => ?_, fun _ => rfl, ?_, rfl⟩
    · rw [FsCtx.flipBlocks_itable, FsCtx.setInode_other differ]
    · rw [shrunk_itable, shrunkInode]
      split <;> rfl

theorem Truncated.bits (truncated : Truncated fs i size now fs' r) {b : Nat}
    (before : b ∉ (fs.itable i).blocks) (after : b ∉ (fs'.itable i).blocks) :
    fs'.blockBits.test b = fs.blockBits.test b := by
  cases truncated with
  | same code equal result => rw [result]
  | stuck code used larger full result => rw [result]
  | filled code used full result => rw [result, FsCtx.withSize, FsCtx.setInode_blockBits]
  | grown code asks some found low room reach inside result =>
    rw [result, extended_blocks low, List.mem_append, not_or] at after
    rw [result]
    exact Bitmap.test_flipAll_of_not_mem after.2
  | shrunk code used smaller result =>
    have kept : b ∉ releasedBlocks (fs.itable i) size := by
      intro member
      exact before (List.mem_reverse.mp (takeDown_subset member))
    rw [result, FsCtx.flipBlocks_blockBits, FsCtx.setInode_blockBits]
    exact Bitmap.test_flipAll_of_not_mem kept

theorem Truncated.fileStep (truncated : Truncated fs i size now fs' r) (tree : Tree fs)
    (steady : Steady fs) (regular : sIsreg (fs.itable i).mode = true) (small : size < 2 ^ 31)
    (grows : fs.GrowsInto i (growthBlocks (fs.itable i) size)) : fs.FileStep fs' i := by
  have measured := tree.files i regular
  obtain ⟨others, live, mode, sizes⟩ := truncated.frame
  have kept (j : Nat) (differ : j ≠ i) : (fs'.itable j).blocks = (fs.itable j).blocks := by
    rw [others j differ]
  have both : (Exclusive fun i => (fs'.itable i).blocks) ∧
      ∀ b ∈ (fs'.itable i).blocks, b < fs.dataBlocks ∧ 4096 * b < 2 ^ 31 := by
    rcases truncated.blocks with same | none | ⟨start, n, found, ⟨bytes, tail, asks, some, count⟩,
      gains, reach⟩
    · refine ⟨tree.exclusive.shrink fun j => ?_, ?_⟩
      · by_cases self : j = i
        · rw [self, same]
        · rw [kept j self]
      · rw [same]
        exact tree.inside i
    · refine ⟨tree.exclusive.drop none kept, ?_⟩
      rw [none]
      intro b member
      cases member
    · obtain ⟨asked, bound⟩ := asks.helperSize some measured small
      have growth : growthBlocks (fs.itable i) size = n := by
        rw [growthBlocks, asked, Option.elim_some, requestedBlocks_nat bound, count]
      rw [growth] at grows
      have fresh (b : Nat) (member : b ∈ List.range' start n) : ∀ j, b ∉ (fs.itable j).blocks :=
        tree.uncovered (grows.uncovered start found (by omega) b member)
      refine ⟨tree.exclusive.give List.nodup_range' (fun j b mine new => fresh b new j mine) gains kept,
        fun b member => ?_⟩
      rw [gains, List.mem_append] at member
      rcases member with old | new
      · exact tree.inside i b old
      · have place := reach b new
        have whole := steady.shaped.whole
        omega
  exact ⟨mode, others, live, sizes, truncated.measured measured small, both.1, both.2,
    truncated.changed measured, fun b before after => truncated.bits before after⟩

theorem FsCtx.FileStep.store {a : Nat} {buf : List Byte} (step : fs.FileStep fs' i)
    (covers : ∀ x, a ≤ x → x < a + buf.length → x / 4096 ∈ (fs'.itable i).blocks) :
    fs.FileStep { fs' with data := fs'.data.store a buf } i := by
  have stored : ChangedWithin 4096 fs'.data (fs'.data.store a buf)
      ((fs.itable i).blocks ++ (fs'.itable i).blocks) := by
    refine .store fun x low high => ?_
    exact List.mem_append_right _ (covers x low high)
  exact ⟨step.mode, step.others, step.live, step.sizes, step.measured, step.exclusive, step.inside,
    step.changed.trans stored, step.bits⟩

theorem FsCtx.FileStep.refl (tree : Tree fs) (regular : sIsreg (fs.itable i).mode = true) :
    fs.FileStep fs i :=
  ⟨rfl, fun _ _ => rfl, fun _ => rfl, rfl, tree.files i regular, tree.exclusive, tree.inside i, .refl,
    fun _ _ _ => rfl⟩

theorem Placed.covers {inode : A1fsInode} {offset length a x : Nat}
    (placed : Placed inode offset length a) (measured : inode.Measured)
    (aligned : offset % 4096 + length ≤ 4096) (low : a ≤ x) (high : x < a + length) :
    x / 4096 ∈ inode.blocks := by
  cases placed with
  | @within k slot start passed fits =>
    refine A1fsInode.mem_blocks.mpr ⟨k, slot, ?_⟩
    have within : x / 4096 ∈ List.range' (inode.iExtent k).start (inode.iExtent k).count :=
      mem_run (by omega) (by omega)
    exact within
  | @next k slot passed full =>
    refine A1fsInode.mem_blocks.mpr ⟨k + 1, slot, ?_⟩
    have some := measured.counted _ slot
    have within : x / 4096 ∈
        List.range' (inode.iExtent (k + 1)).start (inode.iExtent (k + 1)).count :=
      mem_run (by omega) (by omega)
    exact within

theorem Wrote.fileStep {buf : List Byte} {offset : Nat} (wrote : Wrote fs i buf offset now fs' r)
    (tree : Tree fs) (steady : Steady fs) (regular : sIsreg (fs.itable i).mode = true)
    (short : offset + buf.length < 2 ^ 31) (aligned : offset % 4096 + buf.length ≤ 4096)
    (grows : (fs.itable i).size < offset + buf.length →
      fs.GrowsInto i (growthBlocks (fs.itable i) (buf.length + offset : Nat))) :
    fs.FileStep fs' i := by
  have resize {fs1 : FsCtx} (resized : if offset + buf.length > (fs.itable i).size
      then Truncated fs i (buf.length + offset) now fs1 0 else fs1 = fs) : fs.FileStep fs1 i := by
    split at resized
    · rename_i beyond
      exact resized.fileStep tree steady regular (by omega) (grows beyond)
    · rw [resized]
      exact .refl tree regular
  cases wrote with
  | refused code beyond stuck result =>
    rw [result]
    exact .refl tree regular
  | stored code some resized place result =>
    rw [result]
    have step := resize resized
    exact step.store fun x low high => place.covers step.measured aligned low high
  | empty code none resized => exact resize resized

end Resize

section Enter

variable {fs fs' : FsCtx} {p ino addr n : Nat} {name : List Byte} {now : Timespec}

theorem FsCtx.AddsBlock.blockStep (added : fs.AddsBlock p now fs') (tree : Tree fs)
    (steady : Steady fs) (dir : sIsdir (fs.itable p).mode = true) (grows : fs.GrowsInto p 1) :
    ∃ block, fs.BlockStep fs' p block := by
  obtain ⟨block, inode, growth, entries, rfl⟩ := added
  have gains := growth.blocks
  cases growth with
  | attach found taken =>
    rw [grows.apart] at taken
    cases taken
  | append found answer low room =>
    refine ⟨block, ?_⟩
    have fresh : fs.Uncovered block :=
      grows.uncovered block found (by omega) block (by rw [List.mem_range'_1]; omega)
    have start : (((fs.itable p).appendExtent ⟨block, 1, 0⟩ now).iExtent
        ((fs.itable p).appendExtent ⟨block, 1, 0⟩ now).lastUsedExtent.toNat).start = block := by
      simp only [A1fsInode.appendExtent]
      rw [A1fsInode.setExtent_self]
    have whole := steady.shaped.whole
    rw [FsCtx.EntriesInside, start] at entries
    have self : ((fs.grown p ((fs.itable p).appendExtent ⟨block, 1, 0⟩ now) .directory).flipBlocks
        [block] 1).itable p = (fs.itable p).appendExtent ⟨block, 1, 0⟩ now := FsCtx.setInode_self
    have data : ((fs.grown p ((fs.itable p).appendExtent ⟨block, 1, 0⟩ now) .directory).flipBlocks
        [block] 1).data = FsCtx.freeEntries fs.data block := by
      change FsCtx.freeEntries fs.data (((fs.itable p).appendExtent ⟨block, 1, 0⟩ now).iExtent
        ((fs.itable p).appendExtent ⟨block, 1, 0⟩ now).lastUsedExtent.toNat).start = _
      rw [start]
    refine ⟨found, answer, dir, by rw [self]; rfl, by rw [self]; rfl,
      fun j differ => FsCtx.setInode_other differ, fun _ => rfl, rfl, by rw [self, gains]; rfl,
      tree.uncovered fresh, ⟨by omega, by omega⟩, fun x outside => ?_, fun a member => ?_,
      fun a member => ?_, fun b other => ?_⟩
    · rw [List.mem_singleton] at outside
      rw [data]
      exact freeEntries_outside (by omega)
    · rw [← Bool.not_eq_true, inUse_iff, not_not, FsCtx.dentryIno, data, freeEntries_ino member]
      decide
    · obtain ⟨-, aligned, -⟩ := blockEntries_place member
      rw [data]
      exact freeEntries_name (by omega)
    · exact Bitmap.test_flipAll_of_not_mem (by simpa using other)

theorem writeDentry_enterStep (tree : Tree fs)
    (dir : sIsdir (fs.itable p).mode = true)
    (search : fs.findIno (fs.itable p) (-1) = .ok (some addr))
    (write : writeDentry fs p ino name addr now = .ok fs')
    (proper : 0#8 ∉ name ∧ name ≠ [] ∧ name.length < a1fsNameMax)
    (target : fs.live ino = true ∧ ino ≠ 0) (small : ino < 2 ^ 31)
    (unnamed : ∀ d name, ¬ fs.Edge d name ino) (absent : ∀ j, ¬ fs.Edge p name j) :
    fs.EnterStep fs' p addr ino name := by
  have enters : fs.Enters fs' p addr ino name := by
    apply writeDentry_enters (tree.nodup p) search write proper small
    intro a member used named
    obtain ⟨other, j, -, named', edge⟩ := tree.edge_of_used dir member used
    obtain rfl := named'.unique named
    exact absent j edge
  have touches := writeDentry_touches write
  have outside (x : Nat) (other : x < addr ∨ addr + 256 ≤ x) : fs'.data x = fs.data x :=
    writeDentry_outside proper.2.2 write other
  obtain ⟨-, result⟩ := writeDentry_ok write
  have self : fs'.itable p = enteredDir (fs.itable p) now := by
    rw [result]
    exact FsCtx.setInode_self
  have live (j : Nat) : fs'.live j = fs.live j := by rw [result]; rfl
  have sizes : fs'.dataBlocks = fs.dataBlocks := by rw [result]; rfl
  clear result write
  have numEntries : (fs'.itable p).numEntries = (fs.itable p).numEntries + 1 := by
    have few := tree.few p
    have counted := tree.counted p dir
    have bound : (fs.itable p).entries.countP fs.inUse ≤ (fs.itable p).entries.length :=
      List.countP_le_length
    rw [self]
    change ((fs.itable p).numEntries + 1) % 2 ^ 32 = _
    omega
  refine ⟨dir, enters, touches.inode.mode, touches.inode.blocks, numEntries, touches.others, live,
    sizes, fun x other => ?_, target, unnamed, touches.blockBits⟩
  apply outside
  by_contra within
  exact other (entry_block enters.member (by omega) (by omega))

/-- A free inode is taken and gets an entry in the directory of its path, which may get a block
    for it. -/
structure FsCtx.Makes (fs fs' : FsCtx) (path : CString) (mode : BitVec 32) (now : Timespec)
    (ino p : Nat) : Prop where
  free : getAvailableBit fs.sb fs.inodeBits .inode (-1) = .ok (ino : Int)
  clear : fs.inodeBits.test ino = false
  inside : (ino : Int) < fs.sb.sbInodesCount
  parent : Walk fs.Edge 0 (strtok path.bytes).dropLast p
  split : strtok path.bytes = (strtok path.bytes).dropLast ++ [strrchr path.bytes]
  number : getInodeNum (fs.takeInode ino mode now) path 1 = .ok (p : Int)
  steps : ∃ fs1 addr, (fs1 = fs.takeInode ino mode now ∨
      (fs.takeInode ino mode now).findIno ((fs.takeInode ino mode now).itable p) (-1) = .ok none ∧
        ∃ block, (fs.takeInode ino mode now).BlockStep fs1 p block) ∧
    fs1.EnterStep fs' p addr ino (strrchr path.bytes)

/-- An inode is taken but its directory has no room for an entry. -/
structure FsCtx.Leaks (fs fs' : FsCtx) (path : CString) (mode : BitVec 32) (now : Timespec)
    (ino p : Nat) : Prop where
  free : getAvailableBit fs.sb fs.inodeBits .inode (-1) = .ok (ino : Int)
  clear : fs.inodeBits.test ino = false
  inside : (ino : Int) < fs.sb.sbInodesCount
  parent : Walk fs.Edge 0 (strtok path.bytes).dropLast p
  number : getInodeNum (fs.takeInode ino mode now) path 1 = .ok (p : Int)
  full : (fs.takeInode ino mode now).findIno ((fs.takeInode ino mode now).itable p) (-1) = .ok none
  noBlock : (fs.takeInode ino mode now).NoBlock
  result : fs' = fs.takeInode ino mode now

variable {call : Call} {env : Env} {mode : BitVec 32} {noParent r : Int} {path : CString}

/-- The steps between taking an inode and entering it do not add edges. -/
theorem FsCtx.Makes.before (makes : fs.Makes fs' path mode now ino p) (tree : Tree fs) :
    ∃ fs1 addr, fs1.EnterStep fs' p addr ino (strrchr path.bytes) ∧ Tree fs1 ∧
      (∀ d name j, fs1.Edge d name j ↔ fs.Edge d name j) ∧
      ∀ j, fs1.live j = (fs.takeInode ino mode now).live j := by
  obtain ⟨fs1, addr, block, enters⟩ := makes.steps
  have taken : Tree (fs.takeInode ino mode now) := tree.takeInode makes.clear makes.inside
  have edges := tree.takeInode_edge makes.clear mode now
  refine ⟨fs1, addr, enters, ?_⟩
  rcases block with rfl | ⟨-, block, step⟩
  · exact ⟨taken, edges, fun _ => rfl⟩
  · have alive : (fs.takeInode ino mode now).live p = true :=
      (takeInode_live makes.clear (tree.alive_of_walk makes.parent)).2
    exact ⟨step.tree taken alive, fun d name j => (step.edge taken d name j).trans (edges d name j),
      step.live⟩

theorem FsCtx.Makes.tree (makes : fs.Makes fs' path mode now ino p) (tree : Tree fs) : Tree fs' := by
  obtain ⟨fs1, addr, enters, tree1, -⟩ := makes.before tree
  exact enters.tree tree1

theorem FsCtx.Makes.edge (makes : fs.Makes fs' path mode now ino p) (tree : Tree fs) (d : Nat)
    (name : List Byte) (j : Nat) : fs'.Edge d name j ↔
      fs.Edge d name j ∨ (d = p ∧ name = strrchr path.bytes ∧ j = ino) := by
  obtain ⟨fs1, addr, enters, tree1, edges, -⟩ := makes.before tree
  rw [enters.edge tree1, edges]

theorem Tree.newEntry (tree : Tree fs) (steady : Steady fs) (creatable : Creatable fs call.path)
    (new : call.newMode = some mode)
    (grows : OnEntry fs env call fun fs _ p =>
      fs.findIno (fs.itable p) (-1) = .ok none → fs.GrowsInto p 1)
    (h : newEntry env fs call.path mode noParent = .ok (fs', r)) :
    (r = -eNoSpc ∧ fs' = fs ∧ getAvailableBit fs.sb fs.inodeBits .inode (-1) = .ok (-1)) ∨
    (∃ ino p, r = -(env.errno : Int) ∧ fs.Leaks fs' call.path mode env.now ino p) ∨
    ∃ ino p, r = 0 ∧ fs.Makes fs' call.path mode env.now ino p := by
  obtain ⟨p, walk, -, dir, alive, split, absent⟩ := tree.parent_of_creatable creatable
  rcases newEntry_ok h with full | ⟨ino, free, _, rfl, rest⟩
  · exact .inl full
  obtain ⟨inside, clear⟩ := getAvailableBit_free free
  right
  have taken : Tree (fs.takeInode ino mode env.now) := tree.takeInode clear inside
  have edges := tree.takeInode_edge clear mode env.now
  have walk' : Walk (fs.takeInode ino mode env.now).Edge 0 (strtok call.path.bytes).dropLast p :=
    walk.mono fun d name j edge => (edges d name j).mpr edge
  obtain ⟨differ, alive'⟩ : p ≠ ino ∧ (fs.takeInode ino mode env.now).live p = true :=
    takeInode_live clear alive
  have kept : (fs.takeInode ino mode env.now).itable p = fs.itable p := FsCtx.setInode_other differ
  have dir' : sIsdir ((fs.takeInode ino mode env.now).itable p).mode = true := by rwa [kept]
  rcases rest with ⟨-, -, par, negative, missing⟩ | ⟨q, found, -, added, add, code⟩
  · have nonneg := getInodeNum_parent_nonneg missing
    omega
  have same : (q : Int) = p := getInodeNum_parent taken.closed trivial walk' found
  obtain rfl : q = p := by omega
  rcases addDentry_ok add with ⟨rfl, result, full, noBlock⟩ | ⟨rfl, fs1, addr, grown, search, write⟩
  · refine .inl ⟨ino, q, ?_, free, clear, inside, walk, found, full, noBlock, result⟩
    rw [code, if_pos (by omega)]
  · refine .inr ⟨ino, q, ?_, free, clear, inside, walk, split, found, fs1, addr, ?_⟩
    · rw [code, if_neg (by omega)]
    have block : fs1 = fs.takeInode ino mode env.now ∨
        (fs.takeInode ino mode env.now).findIno ((fs.takeInode ino mode env.now).itable q) (-1) =
            .ok none ∧
          ∃ block, (fs.takeInode ino mode env.now).BlockStep fs1 q block := by
      rcases grown with ⟨-, rfl⟩ | ⟨needed, added⟩
      · exact .inl rfl
      · exact .inr ⟨needed, added.blockStep taken steady.takeInode dir' (grows.holds new free found needed)⟩
    have few := steady.shaped.fewInodes
    have member : strrchr call.path.bytes ∈ strtok call.path.bytes := by
      rw [split]
      simp
    have alive1 : (fs.takeInode ino mode env.now).live ino = true := takeInode_live_self inside clear
    have notRoot : ino ≠ 0 := (live_ne_free tree.root.1 clear).symm
    obtain ⟨tree1, dir1, edges1, live1⟩ : Tree fs1 ∧ sIsdir (fs1.itable q).mode = true ∧
        (∀ d name j, fs1.Edge d name j ↔ fs.Edge d name j) ∧ fs1.live ino = true := by
      rcases block with rfl | ⟨-, block, step⟩
      · exact ⟨taken, dir', edges, alive1⟩
      · refine ⟨step.tree taken alive', ?_, fun d name j => ?_, ?_⟩
        · rwa [step.mode]
        · exact (step.edge taken d name j).trans (edges d name j)
        · rwa [step.live]
    refine ⟨block, writeDentry_enterStep tree1 dir1 search write (creatable.1.proper member)
      ⟨live1, notRoot⟩ (by omega) (fun d name edge => ?_) fun j edge => ?_⟩
    · exact tree.unnamed_of_free clear d name ((edges1 d name ino).mp edge)
    · exact absent j ((edges1 q _ j).mp edge)

end Enter

section Remove

variable {fs fs' : FsCtx} {p ino addr : Nat} {name : List Byte} {now : Timespec} {path : CString}
  {env : Env} {dirs r : Int}

theorem Tree.flipBlocks (tree : Tree fs) {l : List Nat} {flipType : Nat} :
    Tree (fs.flipBlocks l flipType) := by
  have same (d : Nat) : fs.SameDirectory (fs.flipBlocks l flipType) d :=
    .of_blocks rfl (.refl (l := [])) (List.disjoint_nil_right _)
  exact ⟨tree.exclusive, tree.inside, tree.dead, tree.root, tree.files,
    fun d dir => (same d).listed (tree.listed d dir), tree.linked, tree.once, tree.counted⟩

theorem Tree.dropInode_closed (tree : Tree fs) :
    (fs.dropInode ino now).Closed fun _ => True := by
  refine ⟨fun _ _ _ _ _ => trivial, fun d _ dir => ?_⟩
  by_cases same : d = ino
  · apply FsCtx.Listed.of_empty
    have unused : ((fs.dropInode ino now).itable ino).lastUsedExtent = -1 := by
      change ((fs.setInode ino _).itable ino).lastUsedExtent = -1
      rw [FsCtx.setInode_self]
      rfl
    rw [same, A1fsInode.entries, A1fsInode.blocks_of_empty unused]
    rfl
  · have kept : (fs.dropInode ino now).itable d = fs.itable d := FsCtx.setInode_other same
    have unchanged : fs.SameDirectory (fs.dropInode ino now) d :=
      .of_blocks (by rw [kept]) (.refl (l := [])) (List.disjoint_nil_right _)
    rw [kept] at dir
    exact unchanged.listed (tree.listed d dir)

theorem Tree.findIno_entry (tree : Tree fs) (edge : fs.Edge p name ino)
    (found : (fs.itable p).entries.find? (fun a => fs.dentryIno a = ino) = some addr) :
    addr ∈ (fs.itable p).entries ∧ fs.dentryIno addr = ino ∧ fs.Named addr name := by
  have member := List.mem_of_find?_eq_some found
  have number : fs.dentryIno addr = ino := by simpa using List.find?_some found
  have used : fs.inUse addr = true := inUse_iff.mpr (by omega)
  obtain ⟨other, j, same, named, edge'⟩ := tree.edge_of_used edge.1 member used
  obtain rfl : j = ino := by omega
  obtain ⟨-, rfl⟩ := tree.once _ _ _ _ _ edge edge'
  exact ⟨member, number, named⟩

theorem clearDentry_removeStep (tree : Tree fs) (edge : fs.Edge p name ino)
    (childless : ∀ name j, ¬ fs.Edge ino name j)
    (member : addr ∈ (fs.itable p).entries) (number : fs.dentryIno addr = ino)
    (named : fs.Named addr name)
    (result : fs' = clearDentry (fs.dropInode ino now) p addr dirs now) :
    fs.RemoveStep fs' p addr ino name := by
  have dir := edge.1
  have differ : p ≠ ino := by
    rintro rfl
    exact childless _ _ edge
  have kept (j : Nat) (other : j ≠ ino) : (fs.dropInode ino now).itable j = fs.itable j :=
    FsCtx.setInode_other other
  have touches : (fs.dropInode ino now).creditBlock.Touches fs' p := by
    rw [result]
    exact clearDentry_touches
  have extents : (fs.itable p).SameExtents (fs'.itable p) := by
    rw [← kept p differ]
    exact touches.inode
  have self : (fs'.itable p).numEntries = ((fs.itable p).numEntries + 2 ^ 32 - 1) % 2 ^ 32 := by
    rw [← kept p differ, result]
    simp only [clearDentry, FsCtx.setInode_self]
  have others (j : Nat) (other : j ≠ p) (other' : j ≠ ino) : fs'.itable j = fs.itable j := by
    rw [← kept j other', result]
    exact FsCtx.setInode_other other
  have reset : fs'.itable ino = resetInode (fs.itable ino) now := by
    have dropped : (fs.dropInode ino now).itable ino = resetInode (fs.itable ino) now :=
      FsCtx.setInode_self
    rw [← dropped, result]
    exact FsCtx.setInode_other (Ne.symm differ)
  have live (j : Nat) : fs'.live j = (fs.dropInode ino now).live j := by rw [result]; rfl
  have sizes : fs'.dataBlocks = fs.dataBlocks := by rw [result]; rfl
  have bits : fs'.blockBits = fs.blockBits := by rw [result]; rfl
  have outside (x : Nat) (other : x < addr ∨ addr + 256 ≤ x) : fs'.data x = fs.data x := by
    rw [result]
    exact clearDentry_outside other
  have clears : fs.Clears fs' p addr ino name := by
    rw [result]
    exact clearDentry_clears (kept p differ) rfl (tree.nodup p) member number named
  clear result
  have blocks := extents.blocks
  have numEntries : (fs'.itable p).numEntries + 1 = (fs.itable p).numEntries := by
    have few := tree.few p
    have counted := tree.counted p dir
    have bound : (fs.itable p).entries.countP fs.inUse ≤ (fs.itable p).entries.length :=
      List.countP_le_length
    have some : 0 < (fs.itable p).entries.countP fs.inUse :=
      List.countP_pos_iff.mpr ⟨addr, member, clears.used⟩
    omega
  refine ⟨dir, clears, childless, extents.mode, blocks, numEntries, ?_, others, fun j other => ?_, ?_,
    sizes, fun x other => ?_, bits⟩
  · rw [reset]
    exact ⟨rfl, rfl, rfl, rfl⟩
  · rw [live, dropInode_live other]
  · obtain ⟨-, marked⟩ := live_iff.mp (tree.linked _ _ _ edge).1
    rw [live, ← Bool.not_eq_true, live_iff, not_and]
    intro _
    change ¬ (fs.inodeBits.flip ino).test ino = true
    rw [Bitmap.test_flip, marked]
    simp
  · apply outside
    by_contra within
    exact other (entry_block member (by omega) (by omega))

theorem Tree.removeEntry (tree : Tree fs) (walk : Walk fs.Edge 0 (strtok path.bytes).dropLast p)
    (edge : fs.Edge p name ino) (childless : ∀ name j, ¬ fs.Edge ino name j)
    (h : removeEntry env fs path ino dirs = .ok (fs', r)) :
    r = 0 ∧ ∃ addr, fs.RemoveStep fs' p addr ino name := by
  have differ : p ≠ ino := by
    rintro rfl
    exact childless _ _ edge
  have marked := (live_iff.mp (tree.linked _ _ _ edge).1).2
  have kept (j : Nat) (other : j ≠ ino) : (fs.dropInode ino env.now).itable j = fs.itable j :=
    FsCtx.setInode_other other
  have walk' : Walk (fs.dropInode ino env.now).Edge 0 (strtok path.bytes).dropLast p := by
    apply walk.mono
    intro d name j old
    have other : d ≠ ino := by
      rintro rfl
      exact childless _ _ old
    have unchanged : fs.SameDirectory (fs.dropInode ino env.now) d :=
      .of_blocks (by rw [kept d other]) (.refl (l := [])) (List.disjoint_nil_right _)
    exact (unchanged.edge (by rw [kept d other]) (tree.listed d)).mpr old
  have parent {q : Int} (found : getInodeNum (fs.dropInode ino env.now) path 1 = .ok q) : q = p :=
    getInodeNum_parent tree.dropInode_closed trivial walk' found
  have number (a : Nat) : (fs.dropInode ino env.now).dentryIno a = fs.dentryIno a := rfl
  rcases removeEntry_ok h with ⟨clear, -⟩ | ⟨-, _, rfl, ⟨-, -, missing⟩ |
    ⟨q, addr, found, -, search, rfl, result⟩⟩
  · rw [clear] at marked
    cases marked
  · exfalso
    rcases missing with ⟨q, negative, found⟩ | ⟨q, found, none⟩
    · have same := parent found
      omega
    · have same := parent found
      obtain rfl : q = p := by omega
      obtain ⟨a, member, entry, -⟩ := (tree.listed q edge.1).entry_iff.mp edge.2
      rw [kept q differ] at none
      exact findIno_none none a member entry
  · have same := parent found
    obtain rfl : q = p := by omega
    rw [kept q differ] at search
    obtain ⟨member, number, named⟩ := tree.findIno_entry edge (findIno_ok search).symm
    exact ⟨rfl, addr, clearDentry_removeStep tree edge childless member number named result⟩

end Remove

section Step

variable {fs fs' : FsCtx} {ino : Nat} {path : CString} {env : Env} {r : Int} {fuel : Nat}

theorem no_edge_of_file {j : Nat} {name : List Byte} (regular : sIsreg (fs.itable ino).mode = true) :
    ¬ fs.Edge ino name j := by
  intro edge
  rw [not_regular edge.1] at regular
  cases regular

theorem Tree.no_edge_of_empty (tree : Tree fs) {j : Nat} {name : List Byte}
    (none : (fs.itable ino).numEntries = 0) : ¬ fs.Edge ino name j := by
  intro edge
  obtain ⟨a, member, number, -⟩ := (tree.listed ino edge.1).entry_iff.mp edge.2
  have counted := tree.counted ino edge.1
  have some : 0 < (fs.itable ino).entries.countP fs.inUse :=
    List.countP_pos_iff.mpr ⟨a, member, inUse_iff.mpr (by omega)⟩
  omega

/-- `a1fs_unlink` on a tree removes the file or, with an extent whose first bit is clear, only flips
    bits of its blocks. -/
theorem Tree.unlink (tree : Tree fs) (documented : IsFile fs path)
    (h : a1fsUnlink env fs path = .ok (fs', r)) : ∃ i p, fs.resolve path = some i ∧
      Walk fs.Edge 0 (strtok path.bytes).dropLast p ∧ fs.Edge p (strrchr path.bytes) i ∧
      sIsreg (fs.itable i).mode = true ∧
      ((r = 0 ∧ (∀ k, ¬ StopsAt fs i k) ∧ ∃ addr, (fs.flipBlocks (fs.itable i).blocks 0).RemoveStep fs'
          p addr i (strrchr path.bytes)) ∨
        ∃ k, r = -(env.errno : Int) ∧ StopsFirst fs i k ∧
          fs' = fs.flipBlocks ((fs.itable i).slotBlocks (List.range k)) 0) := by
  obtain ⟨i, found, regular, -, -, p, walk, edge⟩ := tree.file documented
  refine ⟨i, p, found, walk, edge, regular, ?_⟩
  obtain ⟨ino, number, -, visited, rest, slots, marked, _, rfl, -, ⟨rfl, remove⟩ |
    ⟨code, result, k, next, clear⟩⟩ := a1fsUnlink_ok h
  all_goals
    have same := tree.resolves found number
    obtain rfl : ino = i := by omega
  · rw [List.append_nil] at slots
    rw [← slots] at remove marked
    have flipped : Tree (fs.flipBlocks ((fs.itable ino).slotBlocks (fs.itable ino).usedSlots) 0) :=
      tree.flipBlocks
    have removed := flipped.removeEntry walk edge (fun _ _ => no_edge_of_file regular) remove
    exact .inl ⟨removed.1, fun k stops =>
      passes_of_marked marked k (List.mem_range.mp stops.1) stops, removed.2⟩
  · obtain ⟨rfl, slot⟩ := range_split slots next
    exact .inr ⟨k, code, ⟨⟨slot, clear⟩, passes_of_marked marked⟩, result⟩

/-- `a1fs_rmdir` on a tree refuses a directory with entries and removes one without. -/
theorem Tree.rmdir (tree : Tree fs) (documented : IsDirectory fs path)
    (keepsRoot : OnRmdir fs (.rmdir path) fun i => i ≠ 0)
    (h : a1fsRmdir env fs path = .ok (fs', r)) : ∃ i p, fs.resolve path = some i ∧
      Walk fs.Edge 0 (strtok path.bytes).dropLast p ∧ fs.Edge p (strrchr path.bytes) i ∧
      sIsdir (fs.itable i).mode = true ∧
      ((r = -eNotEmpty ∧ 0 < (fs.itable i).numEntries ∧ fs' = fs) ∨
        (r = 0 ∧ (fs.itable i).numEntries = 0 ∧
          ∃ addr, fs.RemoveStep fs' p addr i (strrchr path.bytes))) := by
  obtain ⟨shaped, i, found, dir⟩ := documented
  obtain ⟨ino, number, -, outcome⟩ := a1fsRmdir_ok h
  have same := tree.resolves found number
  obtain rfl : ino = i := by omega
  obtain ⟨p, walk, edge⟩ := tree.entry_of_resolve shaped found (keepsRoot.holds number)
  refine ⟨ino, p, found, walk, edge, dir, ?_⟩
  rcases outcome with ⟨some, result, code⟩ | ⟨none, remove⟩
  · exact .inl ⟨code, some, result⟩
  · have removed := tree.removeEntry walk edge (fun _ _ => tree.no_edge_of_empty none) remove
    exact .inr ⟨removed.1, none, removed.2⟩

theorem Tree.truncate (tree : Tree fs) (steady : Steady fs) (documented : IsFile fs path) {size : Int}
    (resizes : OnResize fs (.truncate path size) fun i size =>
      0 ≤ size ∧ size < 2 ^ 31 ∧ fs.GrowsInto i (growthBlocks (fs.itable i) size))
    (h : a1fsTruncate env fuel fs path size = .ok (fs', r)) : ∃ i, fs.resolve path = some i ∧
      sIsreg (fs.itable i).mode = true ∧ fs.live i = true ∧ ∃ n : Nat, size = n ∧ n < 2 ^ 31 ∧
      Truncated fs i n env.now fs' r ∧ fs.FileStep fs' i := by
  obtain ⟨i, found, regular, alive, -⟩ := tree.file documented
  refine ⟨i, found, regular, alive, ?_⟩
  obtain ⟨ino, walk, -, -⟩ := a1fsTruncate_resized steady.shaped.range h
  have same := tree.resolves found walk
  obtain rfl : ino = i := by omega
  obtain ⟨low, high, grows⟩ := resizes.holds walk rfl
  obtain ⟨n, rfl⟩ : ∃ n : Nat, size = n := ⟨size.toNat, by omega⟩
  have truncated := a1fsTruncate_exact steady.shaped.range (tree.files _ regular) (by omega)
    grows.apart walk h
  exact ⟨n, rfl, by omega, truncated, truncated.fileStep tree steady regular (by omega) grows⟩

theorem Tree.write (tree : Tree fs) (steady : Steady fs) {buf : List Byte} {offset : Nat}
    (sound : Sound fs ⟨.write path buf offset, env, r⟩)
    (h : a1fsWrite env fuel fs path buf offset = .ok (fs', r)) : ∃ i, fs.resolve path = some i ∧
      sIsreg (fs.itable i).mode = true ∧ fs.live i = true ∧ Wrote fs i buf offset env.now fs' r ∧
      fs.FileStep fs' i := by
  obtain ⟨isFile, aligned⟩ := sound.documented
  obtain ⟨i, found, regular, alive, -⟩ := tree.file isFile
  refine ⟨i, found, regular, alive, ?_⟩
  have walk : getInodeNum fs path 0 = .ok (i : Int) := by
    rcases a1fsWrite_split h with ⟨-, ino, -, walk⟩ | ⟨ino, walk, -⟩
    all_goals
      have same := tree.resolves found walk
      rw [walk, same]
  obtain ⟨short, lands⟩ := sound.lands.holds walk
  have resizes (beyond : (fs.itable i).size < offset + buf.length) :=
    sound.resizes.holds walk (if_pos beyond)
  have wrote := a1fsWrite_exact steady.shaped.range (tree.files _ regular) short
    (fun beyond => (resizes beyond).2.2.apart) lands walk aligned h
  exact ⟨wrote, wrote.fileStep tree steady regular short aligned fun beyond => (resizes beyond).2.2⟩

/-- What a call that leaves the blocks of other inodes alone does to a tree. -/
inductive FsCtx.TreeEffect (fs fs' : FsCtx) : Event → Prop
  | refused {call : Call} {env : Env} {mode : BitVec 32} (new : call.newMode = some mode) (same : fs' = fs) :
      TreeEffect fs fs' ⟨call, env, -eNoSpc⟩
  | leaks {call : Call} {env : Env} {mode : BitVec 32} {ino p : Nat} (new : call.newMode = some mode)
      (creatable : Creatable fs call.path) (leaks : fs.Leaks fs' call.path mode env.now ino p) :
      TreeEffect fs fs' ⟨call, env, -(env.errno : Int)⟩
  | makes {call : Call} {env : Env} {mode : BitVec 32} {ino p : Nat} (new : call.newMode = some mode)
      (creatable : Creatable fs call.path) (makes : fs.Makes fs' call.path mode env.now ino p) :
      TreeEffect fs fs' ⟨call, env, 0⟩
  | unlinks {path : CString} {env : Env} {i p addr : Nat} (found : fs.resolve path = some i)
      (walk : Walk fs.Edge 0 (strtok path.bytes).dropLast p) (edge : fs.Edge p (strrchr path.bytes) i)
      (removed : (fs.flipBlocks (fs.itable i).blocks 0).RemoveStep fs' p addr i (strrchr path.bytes)) :
      TreeEffect fs fs' ⟨.unlink path, env, 0⟩
  | stops {path : CString} {env : Env} {i k : Nat} (found : fs.resolve path = some i)
      (stops : StopsFirst fs i k)
      (result : fs' = fs.flipBlocks ((fs.itable i).slotBlocks (List.range k)) 0) :
      TreeEffect fs fs' ⟨.unlink path, env, -(env.errno : Int)⟩
  | notEmpty {path : CString} {env : Env} (same : fs' = fs) : TreeEffect fs fs' ⟨.rmdir path, env, -eNotEmpty⟩
  | removes {path : CString} {env : Env} {i p addr : Nat} (found : fs.resolve path = some i)
      (walk : Walk fs.Edge 0 (strtok path.bytes).dropLast p) (edge : fs.Edge p (strrchr path.bytes) i)
      (removed : fs.RemoveStep fs' p addr i (strrchr path.bytes)) : TreeEffect fs fs' ⟨.rmdir path, env, 0⟩
  | truncates {path : CString} {env : Env} {i size : Nat} {r : Int} (found : fs.resolve path = some i)
      (regular : sIsreg (fs.itable i).mode = true) (alive : fs.live i = true) (small : size < 2 ^ 31)
      (truncated : Truncated fs i size env.now fs' r) (changed : fs.FileStep fs' i) :
      TreeEffect fs fs' ⟨.truncate path size, env, r⟩
  | writes {path : CString} {buf : List Byte} {offset : Nat} {env : Env} {i : Nat} {r : Int}
      (found : fs.resolve path = some i) (regular : sIsreg (fs.itable i).mode = true)
      (alive : fs.live i = true) (wrote : Wrote fs i buf offset env.now fs' r) (changed : fs.FileStep fs' i) :
      TreeEffect fs fs' ⟨.write path buf offset, env, r⟩

theorem Tree.effect (tree : Tree fs) (steady : Steady fs) {event : Event} (sound : Sound fs event)
    (step : a1fs.Step fs event fs') : fs.TreeEffect fs' event := by
  obtain ⟨fuel, returned⟩ := step
  obtain ⟨call, env, r⟩ := event
  have made {mode : BitVec 32} {noParent : Int} (creatable : Creatable fs call.path)
      (new : call.newMode = some mode)
      (h : ExtentFs.newEntry env fs call.path mode noParent = .ok (fs', r)) :
      fs.TreeEffect fs' ⟨call, env, r⟩ := by
    rcases tree.newEntry steady creatable new sound.enters h with ⟨rfl, same, -⟩ |
      ⟨ino, p, (code : r = -(env.errno : Int)), leaks⟩ | ⟨ino, p, rfl, makes⟩
    · exact .refused new same
    · subst code
      exact .leaks new creatable leaks
    · exact .makes new creatable makes
  cases call with
  | create path mode => exact made sound.documented rfl (a1fsCreate_ok.mp returned).2
  | mkdir path mode => exact made sound.documented.1 rfl returned
  | unlink path =>
    obtain ⟨i, p, found, walk, edge, -, ⟨rfl, -, addr, removed⟩ |
      ⟨k, (code : r = -(env.errno : Int)), stops, result⟩⟩ := tree.unlink sound.documented returned
    · exact .unlinks found walk edge removed
    · subst code
      exact .stops found stops result
  | rmdir path =>
    obtain ⟨i, p, found, walk, edge, -, ⟨rfl, -, same⟩ | ⟨rfl, -, addr, removed⟩⟩ :=
      tree.rmdir sound.documented sound.keepsRoot returned
    · exact .notEmpty same
    · exact .removes found walk edge removed
  | truncate path size =>
    obtain ⟨i, found, regular, alive, n, rfl, small, truncated, changed⟩ :=
      tree.truncate steady sound.documented sound.resizes returned
    exact .truncates found regular alive small truncated changed
  | write path buf offset =>
    obtain ⟨i, found, regular, alive, wrote, changed⟩ := tree.write steady sound returned
    exact .writes found regular alive wrote changed

/-- Every call that leaves the blocks of other inodes alone keeps the tree. -/
theorem Tree.step (tree : Tree fs) (steady : Steady fs) {event : Event} (sound : Sound fs event)
    (step : a1fs.Step fs event fs') : Tree fs' := by
  cases tree.effect steady sound step with
  | refused new same => exact same ▸ tree
  | leaks new creatable leaks =>
    rw [leaks.result]
    exact tree.takeInode leaks.clear leaks.inside
  | makes new creatable makes => exact makes.tree tree
  | unlinks found walk edge removed => exact removed.tree tree.flipBlocks
  | stops found stops result =>
    rw [result]
    exact tree.flipBlocks
  | notEmpty same => exact same ▸ tree
  | removes found walk edge removed => exact removed.tree tree
  | truncates found regular alive small truncated changed => exact changed.tree tree alive regular
  | writes found regular alive wrote changed => exact changed.tree tree alive regular

end Step

theorem Geometry.tree {blocks nInodes d : Nat} {now : Timespec} (g : Geometry blocks nInodes d) :
    Tree (formatted blocks nInodes d now) := by
  have none := formatted_blocks blocks nInodes d now
  have entries (i : Nat) : ((formatted blocks nInodes d now).itable i).entries = [] := by
    rw [A1fsInode.entries, none]
    rfl
  have root : (formatted blocks nInodes d now).itable 0 = rootInode now := by
    simp only [formatted, if_true]
  have dir : sIsdir (rootInode now).mode = true := by
    change sIsdir (sIfdir ||| 0o777#32) = true
    decide
  refine ⟨.empty none, fun i b member => ?_, fun i _ => none i, ?_, fun i regular => ?_,
    fun i _ => .of_empty (entries i), fun i name j edge => ?_,
    fun i i' name name' j edge => ?_, fun i directory => ?_⟩
  · rw [none] at member
    cases member
  · have some : (0 : Int) < nInodes := by
      have := g.someInode
      omega
    rw [root, live_iff, formatted_marks]
    exact ⟨⟨some, rfl⟩, dir⟩
  · rcases formatted_inode blocks nInodes d now i with at_ | zero
    · rw [at_, not_regular dir] at regular
      cases regular
    · rw [zero, zeroInode_fields.1] at regular
      cases regular
  · exact absurd edge (no_edge (none i))
  · exact absurd edge (no_edge (none i))
  · rw [entries]
    rcases formatted_inode blocks nInodes d now i with at_ | zero
    · rw [at_]
      rfl
    · rw [zero, zeroInode_fields.1] at directory
      cases directory

theorem tree_of_reaches {fs : FsCtx} {guard : FsCtx → Event → Prop} (run : a1fs.Reaches guard fs)
    (sound : ∀ fs event, guard fs event → Sound fs event) : Steady fs ∧ Tree fs := by
  refine ⟨steady_of_reaches run, invariant_of_steady run (fun g => g.tree) ?_⟩
  intro s event t steady tree allowed step
  exact tree.step steady (sound s event allowed) step

end ExtentFs
