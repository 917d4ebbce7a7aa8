import ExtentFs.Guarantees.Answers

namespace ExtentFs

open Base

/-- The counters, both bitmaps, the inodes and all entries of directories are as before. -/
structure FsCtx.Unchanged (fs fs' : FsCtx) : Prop where
  sb : fs'.sb = fs.sb
  inodeBits : fs'.inodeBits = fs.inodeBits
  blockBits : fs'.blockBits = fs.blockBits
  itable : fs'.itable = fs.itable
  entries : ∀ d, sIsdir (fs.itable d).mode = true → ∀ a ∈ (fs.itable d).entries, fs.SameEntry fs' a

/-- The whole effect of a call that makes or removes a file or a directory. -/
inductive TakesEffect (fs : FsCtx) (call : Call) (fs' : FsCtx) : Prop
  | added {mode : BitVec 32} {ino : Nat} (new : call.newMode = some mode)
      (adds : fs.Adds fs' call.tokens mode ino)
  | removed {ino : Nat} (removes : call.Removes) (deletes : fs.Deletes fs' call.tokens ino)
      (freed : ∀ b ∈ (fs.itable ino).blocks, fs'.blockBits.test b = false)

def AllOrNothing (fs : FsCtx) (call : Call) (r : Int) (fs' : FsCtx) : Prop :=
  (r = 0 ∧ TakesEffect fs call fs') ∨ (r < 0 ∧ fs.Unchanged fs')

/-- A directory to be removed has entries, or no blocks that are marked as used. -/
def RmdirFrees (fs : FsCtx) (call : Call) : Prop :=
  OnRmdir fs call fun i => (fs.itable i).numEntries ≠ 0 ∨
    ∀ b ∈ (fs.itable i).blocks, fs.blockBits.test b = false

/-- All blocks of an unlinked file are marked as used, or the first is not and `errno` says so. -/
def UnlinksAll (fs : FsCtx) (env : Env) (call : Call) : Prop :=
  OnUnlink fs call fun i => fs.Marked i ∨ (StopsFirst fs i 0 ∧ 0 < env.errno)

instance (fs : FsCtx) (call : Call) : Decidable (RmdirFrees fs call) :=
  inferInstanceAs (Decidable (OnRmdir _ _ _))

instance (fs : FsCtx) (env : Env) (call : Call) : Decidable (UnlinksAll fs env call) :=
  inferInstanceAs (Decidable (OnUnlink _ _ _))

section Unlink

variable {fs fs' : FsCtx} {i k : Nat} {l : List Nat} {flipType : Nat}

theorem FsCtx.Unchanged.refl : fs.Unchanged fs := ⟨rfl, rfl, rfl, rfl, fun _ _ _ _ _ _ => rfl⟩

theorem StopsFirst.unique {k' : Nat} (first : StopsFirst fs i k) (second : StopsFirst fs i k') :
    k = k' := by
  rcases Nat.lt_trichotomy k k' with less | same | more
  · exact absurd first.1 (second.2 k less)
  · exact same
  · exact absurd second.1 (first.2 k' more)

namespace Tree

theorem marked_iff (tree : Tree fs) :
    fs.Marked i ↔ ∀ b ∈ (fs.itable i).blocks, fs.blockBits.test b = true :=
  and_iff_right (tree.exclusive.nodup i)

theorem start_mem (tree : Tree fs) (regular : sIsreg (fs.itable i).mode = true)
    (slot : k ∈ (fs.itable i).usedSlots) :
    ((fs.itable i).iExtent k).start ∈ ((fs.itable i).iExtent k).blocks := by
  have some := (tree.files i regular).counted k slot
  rw [A1fsExtent.mem_blocks]
  omega

theorem passes_of_allMarked (tree : Tree fs) (regular : sIsreg (fs.itable i).mode = true)
    (marked : fs.Marked i) : ¬ StopsAt fs i k := by
  rintro ⟨slot, clear⟩
  have mine := tree.start_mem regular slot
  obtain ⟨after, split⟩ := range_cons_split (List.mem_range.mp slot)
  have nodup := tree.exclusive.nodup i
  have blocks : (fs.itable i).blocks = (fs.itable i).slotBlocks (List.range k) ++
      (((fs.itable i).iExtent k).blocks ++ (fs.itable i).slotBlocks after) := by
    rw [A1fsInode.blocks, A1fsInode.usedSlots, split, List.flatMap_append, List.flatMap_cons]
    rfl
  simp only [blocks] at nodup
  have apart : ((fs.itable i).iExtent k).start ∉ (fs.itable i).slotBlocks (List.range k) := by
    intro before
    exact (List.disjoint_of_nodup_append nodup) before (List.mem_append_left _ mine)
  rw [Bitmap.test_flipAll_of_not_mem apart, marked.2] at clear
  · cases clear
  · rw [blocks]
    simp [mine]

theorem flipped_changes (nodup : l.Nodup) (same : fs.Unchanged (fs.flipBlocks l flipType)) :
    l = [] := by
  rw [List.eq_nil_iff_forall_not_mem]
  intro b member
  have bits := congrArg (fun bits => bits.test b) same.blockBits
  rw [FsCtx.flipBlocks_blockBits] at bits
  simp only [Bitmap.test_flipAll nodup, member, decide_true] at bits
  cases test : fs.blockBits.test b <;> rw [test] at bits <;> cases bits

end Tree

end Unlink

section Calls

variable {fs fs' : FsCtx} {call : Call} {env : Env} {mode : BitVec 32} {noParent r : Int}
  {path : CString} {fuel : Nat}

theorem TakesEffect.adds (effect : TakesEffect fs call fs') (new : call.newMode = some mode) :
    ∃ ino, fs.Adds fs' call.tokens mode ino := by
  cases effect with
  | @added mode' ino new' adds =>
    rw [new] at new'
    cases new'
    exact ⟨ino, adds⟩
  | removed removes =>
    rcases removes with ⟨path, rfl⟩ | ⟨path, rfl⟩
    · cases new
    · cases new

theorem TakesEffect.deletes (effect : TakesEffect fs call fs') (removes : call.Removes) :
    ∃ ino, fs.Deletes fs' call.tokens ino ∧
      ∀ b ∈ (fs.itable ino).blocks, fs'.blockBits.test b = false := by
  cases effect with
  | added new =>
    rcases removes with ⟨path, rfl⟩ | ⟨path, rfl⟩
    · cases new
    · cases new
  | @removed ino removes deletes freed => exact ⟨ino, deletes, freed⟩

theorem Tree.newEntry_allOrNothing (tree : Tree fs) (steady : Steady fs)
    (creatable : Creatable fs call.path) (new : call.newMode = some mode)
    (grows : OnEntry fs env call fun fs _ p =>
      fs.findIno (fs.itable p) (-1) = .ok none → fs.GrowsInto p 1)
    (h : ExtentFs.newEntry env fs call.path mode noParent = .ok (fs', r)) :
    AllOrNothing fs call r fs' ↔ FindsRoom fs env call := by
  rcases tree.newEntry steady creatable new grows h with ⟨rfl, rfl, full⟩ | ⟨ino, p, rfl, leaks⟩ |
    ⟨ino, p, rfl, makes⟩
  · have nothing : AllOrNothing fs' call (-eNoSpc) fs' := .inr ⟨by decide, .refl⟩
    have room : FindsRoom fs' env call := by
      intro ino free
      rw [full] at free
      cases free
      intro nonneg
      omega
    exact iff_of_true nothing room
  · -- the inode is taken, and no path leads to it
    have something : ¬ AllOrNothing fs call (-(env.errno : Int)) fs' := by
      rw [leaks.result]
      rintro (⟨-, effect⟩ | ⟨-, same⟩)
      · obtain ⟨ino', adds⟩ := effect.adds new
        have leads := (adds.paths call.tokens ino').mpr (.inr ⟨rfl, rfl⟩)
        rw [Tree.leads_same (tree.takeInode_edge leaks.clear mode env.now)] at leads
        exact tree.not_leads creatable leads
      · have bit := congrArg (fun bits => bits.test ino) same.inodeBits
        change (fs.inodeBits.flip ino).test ino = fs.inodeBits.test ino at bit
        rw [Bitmap.test_flip, leaks.clear] at bit
        simp at bit
    exact iff_of_false something (leaks.noRoom new)
  · have effect : TakesEffect fs call fs' := .added new (makes.adds tree)
    have room : FindsRoom fs env call := by
      intro _ _ _ mode' new' ino' free p' number full
      rw [new] at new'
      cases new'
      rw [makes.free] at free
      cases free
      rw [Int.toNat_natCast, makes.number] at number
      cases number
      rw [Int.toNat_natCast] at full ⊢
      exact makes.room full
    exact iff_of_true (.inl ⟨rfl, effect⟩) room

theorem Tree.passed_allOrNothing (tree : Tree fs) {i : Nat}
    (deletes : (fs.flipBlocks (fs.itable i).blocks 0).Deletes fs' (strtok path.bytes) i)
    (bits : fs'.blockBits = (fs.flipBlocks (fs.itable i).blocks 0).blockBits) :
    AllOrNothing fs (.unlink path) 0 fs' ↔ fs.Marked i := by
  have leads : fs.Leads (strtok path.bytes) i := deletes.named
  have flipped (b : Nat) (member : b ∈ (fs.itable i).blocks) :
      fs'.blockBits.test b = !fs.blockBits.test b := by
    rw [bits, FsCtx.flipBlocks_blockBits, Bitmap.test_flipAll (tree.exclusive.nodup i)]
    simp [member]
  constructor
  · rintro (⟨-, effect⟩ | ⟨negative, -⟩)
    · obtain ⟨j, deleted, freed⟩ := effect.deletes (.inl ⟨path, rfl⟩)
      obtain rfl := tree.forest.end_unique deleted.named leads
      refine tree.marked_iff.mpr fun b member => ?_
      have clear := freed b member
      rw [flipped b member] at clear
      simpa using clear
    · omega
  · intro marked
    refine .inl ⟨rfl, .removed (.inl ⟨path, rfl⟩) ⟨leads, deletes.dead, deletes.others, deletes.paths⟩ ?_⟩
    intro b member
    rw [flipped b member, marked.2 b member]
    rfl

theorem Tree.stopped_allOrNothing (tree : Tree fs) {i k : Nat}
    (regular : sIsreg (fs.itable i).mode = true) (stops : StopsFirst fs i k) :
    AllOrNothing fs (.unlink path) (-(env.errno : Int))
      (fs.flipBlocks ((fs.itable i).slotBlocks (List.range k)) 0) ↔ StopsFirst fs i 0 ∧ 0 < env.errno := by
  constructor
  · rintro (⟨-, effect⟩ | ⟨negative, same⟩)
    · obtain ⟨j, deleted, -⟩ := effect.deletes (.inl ⟨path, rfl⟩)
      have alive := tree.alive_of_walk deleted.named
      have dead : fs.live j = false := deleted.dead
      rw [alive] at dead
      cases dead
    · have nothing := Tree.flipped_changes
        ((tree.exclusive.nodup i).sublist (slotBlocks_sublist stops.1.1)) same
      refine ⟨?_, by omega⟩
      cases k with
      | zero => exact stops
      | succ k =>
        have first : 0 ∈ (fs.itable i).usedSlots := by
          have slot := A1fsInode.mem_usedSlots.mp stops.1.1
          rw [A1fsInode.mem_usedSlots]
          omega
        have member : ((fs.itable i).iExtent 0).start ∈
            (fs.itable i).slotBlocks (List.range (k + 1)) :=
          List.mem_flatMap.mpr ⟨0, by simp, tree.start_mem regular first⟩
        rw [nothing] at member
        cases member
  · rintro ⟨first, some⟩
    obtain rfl := stops.unique first
    right
    refine ⟨by omega, ?_⟩
    have none : (fs.itable i).slotBlocks (List.range 0) = [] := rfl
    rw [none, FsCtx.flipBlocks_nil]
    exact .refl

theorem Tree.unlink_allOrNothing (tree : Tree fs) (documented : IsFile fs path)
    (h : a1fsUnlink env fs path = .ok (fs', r)) :
    AllOrNothing fs (.unlink path) r fs' ↔ UnlinksAll fs env (.unlink path) := by
  obtain ⟨i, p, found, walk, edge, regular, outcome⟩ := tree.unlink documented h
  have asks : UnlinksAll fs env (.unlink path) ↔ fs.Marked i ∨ (StopsFirst fs i 0 ∧ 0 < env.errno) := by
    constructor
    · exact fun unlinks => OnUnlink.holds unlinks (getInodeNum_of_resolve found)
    · intro holds j number
      rw [getInodeNum_of_resolve found] at number
      cases number
      exact holds
  rw [asks]
  rcases outcome with ⟨rfl, passes, addr, removed⟩ | ⟨k, rfl, stops, rfl⟩
  · have leads : fs.Leads (strtok path.bytes) i := tree.walk_of_resolve found
    have deletes : (fs.flipBlocks (fs.itable i).blocks 0).Deletes fs' (strtok path.bytes) i :=
      removed.deletes tree.flipBlocks walk (tree.leads_split documented.1 leads edge)
    rw [tree.passed_allOrNothing deletes removed.bits]
    exact (or_iff_left fun stopped => passes 0 stopped.1.1).symm
  · rw [tree.stopped_allOrNothing regular stops]
    exact (or_iff_right fun marked => tree.passes_of_allMarked regular marked stops.1).symm

theorem Tree.rmdir_allOrNothing (tree : Tree fs) (documented : IsDirectory fs path)
    (keepsRoot : OnRmdir fs (.rmdir path) fun i => i ≠ 0)
    (h : a1fsRmdir env fs path = .ok (fs', r)) : AllOrNothing fs (.rmdir path) r fs' ↔ RmdirFrees fs (.rmdir path) := by
  obtain ⟨i, p, found, walk, edge, -, outcome⟩ := tree.rmdir documented keepsRoot h
  have asks : RmdirFrees fs (.rmdir path) ↔ (fs.itable i).numEntries ≠ 0 ∨
      ∀ b ∈ (fs.itable i).blocks, fs.blockBits.test b = false := by
    constructor
    · exact fun frees => OnRmdir.holds frees (getInodeNum_of_resolve found)
    · intro holds j number
      rw [getInodeNum_of_resolve found] at number
      cases number
      exact holds
  rw [asks]
  rcases outcome with ⟨rfl, used, rfl⟩ | ⟨rfl, unused, addr, removed⟩
  · have nothing : AllOrNothing fs' (.rmdir path) (-eNotEmpty) fs' := .inr ⟨by decide, .refl⟩
    exact iff_of_true nothing (.inl (by omega))
  · have leads : fs.Leads (strtok path.bytes) i := tree.walk_of_resolve found
    have deletes := removed.deletes tree walk (tree.leads_split documented.1 leads edge)
    have bits := removed.bits
    constructor
    · rintro (⟨-, effect⟩ | ⟨negative, -⟩)
      · obtain ⟨j, deleted, freed⟩ := effect.deletes (.inr ⟨path, rfl⟩)
        obtain rfl := tree.forest.end_unique deleted.named leads
        exact .inr fun b member => bits ▸ freed b member
      · omega
    · intro frees
      have clear := frees.resolve_left (by omega)
      exact .inl ⟨rfl, .removed (.inr ⟨path, rfl⟩) deletes fun b member => bits.symm ▸ clear b member⟩

/-- A create or mkdir returns that finds an entry or a block for one. -/
theorem Tree.newEntry_returns (tree : Tree fs) (steady : Steady fs) (sound : Sound fs ⟨call, env, r⟩)
    (creatable : Creatable fs call.path) (new : call.newMode = some mode) (room : FindsRoom fs env call)
    (noParent : Int) : ∃ fs' r, ExtentFs.newEntry env fs call.path mode noParent = .ok (fs', r) := by
  have adds (ino p : Nat) (free : getAvailableBit fs.sb fs.inodeBits .inode (-1) = .ok (ino : Int))
      (number : getInodeNum (fs.takeInode ino mode env.now) call.path 1 = .ok (p : Int)) :
      ∃ fs' r, addDentry (fs.takeInode ino mode env.now) p ino (strrchr call.path.bytes) env.now = .ok (fs', r) := by
    obtain ⟨q, number', -, -, -, readable⟩ := tree.finds_parent steady creatable mode env.now free
    obtain rfl : q = p := by
      have same := Except.ok.inj (number'.symm.trans number)
      omega
    refine addDentry_returns steady.takeInode readable creatable.name_short fun full => .inr ?_
    obtain ⟨starts, block, search, inside⟩ := (room _ free (by omega)).holds new free number full
    have slot := (sound.findsSlot.2.holds new free number full _ search (by omega)).resolve_right
      (by rw [starts.attaches]; exact Bool.false_ne_true)
    exact ⟨⟨block, search, inside⟩, starts, slot⟩
  obtain ⟨fs', r, returned, -⟩ := newEntry_answers env tree steady creatable mode noParent adds
  exact ⟨fs', r, returned⟩

/-- A create or mkdir returns with all or nothing exactly when it finds room. -/
theorem Tree.newEntry_whole (tree : Tree fs) (steady : Steady fs) (sound : Sound fs ⟨call, env, r⟩)
    (creatable : Creatable fs call.path) (new : call.newMode = some mode) (noParent : Int) :
    (∃ fs' r, ExtentFs.newEntry env fs call.path mode noParent = .ok (fs', r) ∧ AllOrNothing fs call r fs') ↔
      FindsRoom fs env call := by
  constructor
  · rintro ⟨fs', r, returned, effect⟩
    exact (tree.newEntry_allOrNothing steady creatable new sound.enters returned).mp effect
  · intro room
    obtain ⟨fs', r, returned⟩ := tree.newEntry_returns steady sound creatable new room noParent
    exact ⟨fs', r, returned, (tree.newEntry_allOrNothing steady creatable new sound.enters returned).mpr room⟩

theorem Tree.unlink_whole (tree : Tree fs) (env : Env) (steady : Steady fs) (documented : IsFile fs path) :
    (∃ fs' r, a1fsUnlink env fs path = .ok (fs', r) ∧ AllOrNothing fs (.unlink path) r fs') ↔
      UnlinksAll fs env (.unlink path) := by
  obtain ⟨fs', r, returned⟩ := a1fsUnlink_answers env tree steady documented
  have whole := tree.unlink_allOrNothing documented returned
  constructor
  · rintro ⟨fs1, r1, same, effect⟩
    cases returned.symm.trans same
    exact whole.mp effect
  · intro unlinks
    exact ⟨fs', r, returned, whole.mpr unlinks⟩

theorem Tree.rmdir_whole (tree : Tree fs) (env : Env) (steady : Steady fs) (documented : IsDirectory fs path)
    (keepsRoot : OnRmdir fs (.rmdir path) fun i => i ≠ 0) :
    (∃ fs' r, a1fsRmdir env fs path = .ok (fs', r) ∧ AllOrNothing fs (.rmdir path) r fs') ↔
      RmdirFrees fs (.rmdir path) := by
  obtain ⟨fs', r, returned⟩ := a1fsRmdir_answers env tree steady documented (tree.tokens_of_rmdir documented keepsRoot)
  have whole := tree.rmdir_allOrNothing documented keepsRoot returned
  constructor
  · rintro ⟨fs1, r1, same, effect⟩
    cases returned.symm.trans same
    exact whole.mp effect
  · intro frees
    exact ⟨fs', r, returned, whole.mpr frees⟩

theorem exists_step_iff {x : Checked (FsCtx × Int)} {P : FsCtx → Int → Prop}
    (runs : ∀ fuel, call.exec env fuel fs = x) :
    (∃ fs' r, a1fs.Step fs ⟨call, env, r⟩ fs' ∧ P fs' r) ↔ ∃ fs' r, x = .ok (fs', r) ∧ P fs' r := by
  constructor
  · rintro ⟨fs', r, ⟨fuel, returned⟩, holds⟩
    exact ⟨fs', r, (runs fuel).symm.trans returned, holds⟩
  · rintro ⟨fs', r, returned, holds⟩
    exact ⟨fs', r, ⟨0, (runs 0).trans returned⟩, holds⟩

end Calls

/-- In runs of calls that leave the blocks of other inodes alone, a call that makes or removes a file or a
    directory returns and does all or nothing exactly when it finds room, frees all blocks and, to create a
    file, is given the mode of one. -/
theorem all_or_nothing {fs : FsCtx} {event : Event} (run : a1fs.Reaches Sound fs)
    (sound : Sound fs event) (names : event.call.newMode.isSome ∨ event.call.Removes) :
    (∃ fs' r, a1fs.Step fs ⟨event.call, event.env, r⟩ fs' ∧ AllOrNothing fs event.call r fs') ↔
      FindsRoom fs event.env event.call ∧ UnlinksAll fs event.env event.call ∧ RmdirFrees fs event.call ∧
        event.call.MakesRegular := by
  obtain ⟨steady, tree⟩ := tree_of_reaches run fun _ _ sound => sound
  obtain ⟨call, env, r⟩ := event
  have noEntry (none : call.newMode = none) : FindsRoom fs env call := by
    intro _ _ _ mode new
    rw [none] at new
    cases new
  cases call with
  | create path mode =>
    have whole := tree.newEntry_whole steady sound sound.documented rfl (-env.errno)
    have made : (∃ fs' r, a1fsCreate env fs path mode = .ok (fs', r) ∧ AllOrNothing fs (.create path mode) r fs') ↔
        sIsreg mode = true ∧ FindsRoom fs env (.create path mode) := by
      simp only [a1fsCreate_ok, ← whole, and_assoc, exists_and_left]
      rfl
    refine (exists_step_iff (x := a1fsCreate env fs path mode) fun _ => rfl).trans (made.trans ?_)
    exact ⟨fun ⟨regular, room⟩ => ⟨room, trivial, trivial, regular⟩, fun ⟨room, _, _, regular⟩ => ⟨regular, room⟩⟩
  | mkdir path mode =>
    have whole := tree.newEntry_whole steady sound sound.documented.1 rfl (-eNoEnt)
    refine (exists_step_iff (x := a1fsMkdir env fs path mode) fun _ => rfl).trans (whole.trans ?_)
    exact ⟨fun room => ⟨room, trivial, trivial, trivial⟩, And.left⟩
  | unlink path =>
    have whole := tree.unlink_whole env steady sound.documented
    refine (exists_step_iff (x := a1fsUnlink env fs path) fun _ => rfl).trans (whole.trans ?_)
    exact ⟨fun unlinks => ⟨noEntry rfl, unlinks, trivial, trivial⟩, fun ⟨_, unlinks, _⟩ => unlinks⟩
  | rmdir path =>
    have whole := tree.rmdir_whole env steady sound.documented sound.keepsRoot
    refine (exists_step_iff (x := a1fsRmdir env fs path) fun _ => rfl).trans (whole.trans ?_)
    exact ⟨fun frees => ⟨noEntry rfl, trivial, frees, trivial⟩, fun ⟨_, _, frees, _⟩ => frees⟩
  | truncate | write =>
    rcases names with new | ⟨_, other⟩ | ⟨_, other⟩
    · cases new
    · cases other
    · cases other

/-- A directory without a block, whose first entry needs one. -/
def blocklessRun : Option FsCtx :=
  runCalls Sound quiet 10 device [.create pathA regularMode, .truncate pathA 5000, .mkdir pathB 0]

theorem all_or_nothing_run : ∃ fs, blocklessRun = some fs ∧
    ∃ fs' r, a1fs.Step fs ⟨.create pathBC regularMode, quiet, r⟩ fs' ∧
      AllOrNothing fs (.create pathBC regularMode) r fs' := by
  have creates : ∃ fs ∈ blocklessRun, Sound fs ⟨.create pathBC regularMode, quiet, 0⟩ ∧
      FindsRoom fs quiet (.create pathBC regularMode) ∧ UnlinksAll fs quiet (.create pathBC regularMode) ∧
      RmdirFrees fs (.create pathBC regularMode) ∧ Call.MakesRegular (.create pathBC regularMode) := by
    decide +kernel
  obtain ⟨fs, run, sound, holds⟩ := creates
  exact ⟨fs, run, (all_or_nothing (runCalls_reaches (.initial device_initial) run) sound (.inl rfl)).mpr holds⟩

/-- A file has got the last free blocks, and a directory has none yet. -/
def filledRun : Option FsCtx :=
  runCalls (fun fs event => Documented fs event.call) quiet 10 device
    [.create pathA regularMode, .mkdir pathB 0, .truncate pathA 45056]

theorem all_or_nothing_fails :
    ∃ fs event fs', a1fs.Reaches (fun fs event => Documented fs event.call) fs ∧
      Documented fs event.call ∧ event.call.newMode.isSome ∧ a1fs.Step fs event fs' ∧
      ¬ AllOrNothing fs event.call event.result fs' := by
  have leaks : ∃ fs ∈ filledRun, Documented fs (.create pathBC regularMode) ∧
      ∃ out, Call.exec quiet 10 fs (.create pathBC regularMode) = .ok out ∧ out.2 = 0 ∧
        (out.1.itable 2).blocks = [] ∧ ∀ a ∈ (out.1.itable 0).entries,
          nameIs out.1.data (a + 4) [98#8] = true → out.1.dentryIno a = 2 := by
    decide +kernel
  obtain ⟨fs, run, documented, ⟨fs', r⟩, returned, rfl, empty, only⟩ := leaks
  refine ⟨fs, ⟨.create pathBC regularMode, quiet, 0⟩, fs',
    runCalls_reaches (.initial device_initial) run, documented, rfl, ⟨10, returned⟩, ?_⟩
  rintro (⟨-, effect⟩ | ⟨negative, -⟩)
  · obtain ⟨ino, adds⟩ := effect.adds rfl
    have leads : fs'.Leads [[98#8], [99#8]] ino := (adds.paths _ ino).mpr (.inr ⟨by decide, rfl⟩)
    obtain ⟨d, first, rest⟩ := Walk.cons_iff.mp leads
    obtain ⟨j, second, -⟩ := Walk.cons_iff.mp rest
    obtain ⟨-, -, a, member, number, named⟩ := first
    have two : fs'.dentryIno a = 2 := only a member named
    obtain rfl : d = 2 := by omega
    exact no_edge empty second
  · cases negative

end ExtentFs
