import ExtentFs.Effects.Names
import ExtentFs.Guarantees.Inodes
import ExtentFs.Invariants.Files

namespace ExtentFs

open Base

namespace FsCtx

def liveDirectory (fs : FsCtx) (i : Nat) : Bool := fs.live i && sIsdir (fs.itable i).mode

def subdirectories (fs : FsCtx) (d : Nat) : Nat :=
  ((fs.itable d).entries.filter fun a =>
    fs.dentryIno a != -1 && fs.liveDirectory (fs.dentryIno a).toNat).length

end FsCtx

/-- The link counts of live inodes and the number of live directories in the superblock. -/
structure LinksAgree (fs : FsCtx) : Prop where
  files : ∀ i, fs.live i = true → sIsreg (fs.itable i).mode = true → (fs.itable i).links = 1
  directories : ∀ i, fs.liveDirectory i = true → (fs.itable i).links = 2 + fs.subdirectories i
  used : fs.sb.sbUsedDirsCount =
    ((Finset.range fs.sb.sbInodesCount.toNat).filter fun i => fs.liveDirectory i = true).card

/-- No inode is made, for want of a free one, and the root is not removed. -/
structure MakesNothing (fs : FsCtx) (event : Event) : Prop where
  full : event.call.newMode ≠ none → fs.NoInodeLeft
  keepsRoot : OnRmdir fs event.call fun i => i ≠ 0

/-- The calls that keep the counts right. -/
structure KeepsLinks (fs : FsCtx) (event : Event) : Prop where
  documented : Documented fs event.call
  nothing : MakesNothing fs event

instance (fs : FsCtx) : Decidable fs.NoInodeLeft :=
  decidable_of_iff (∀ i < fs.sb.sbInodesCount.toNat, fs.inodeBits.test i = true)
    ⟨fun full i below => full i (by omega), fun full i below => full i (by omega)⟩

instance (fs : FsCtx) (event : Event) : Decidable (KeepsLinks fs event) :=
  decidable_of_iff (Documented fs event.call ∧ (event.call.newMode ≠ none → fs.NoInodeLeft) ∧
    OnRmdir fs event.call fun i => i ≠ 0) ⟨fun ⟨a, b, c⟩ => ⟨a, b, c⟩, fun ⟨a, b, c⟩ => ⟨a, b, c⟩⟩

/-- A file system with nothing in it but the root, which has no blocks. -/
structure Bare (fs : FsCtx) : Prop where
  steady : Steady fs
  counted : InodesCounted fs
  live : ∀ i, fs.live i = true ↔ i = 0
  directory : sIsdir (fs.itable 0).mode = true
  unused : (fs.itable 0).lastUsedExtent = -1
  links : (fs.itable 0).links = 2
  empty : (fs.itable 0).numEntries = 0
  used : fs.sb.sbUsedDirsCount = 1

theorem Geometry.bare {blocks nInodes d : Nat} {now : Timespec} (g : Geometry blocks nInodes d) :
    Bare (formatted blocks nInodes d now) := by
  have root : (formatted blocks nInodes d now).itable 0 = rootInode now := by
    simp only [formatted, if_true]
  refine ⟨g.steady, g.inodesCounted, fun i => ?_, ?_, ?_, ?_, ?_, rfl⟩
  · rw [live_iff, formatted_marks, decide_eq_true_iff]
    refine ⟨fun alive => alive.2, fun first => ⟨?_, first⟩⟩
    have some : (0 : Int) < nInodes := by
      have := g.someInode
      omega
    rw [first]
    exact some
  · rw [root]
    change sIsdir (sIfdir ||| 0o777#32) = true
    decide
  · rw [root]
    rfl
  · rw [root]
    rfl
  · rw [root]
    rfl

namespace Bare

variable {fs fs' : FsCtx} {env : Env} {path : CString} {mode : BitVec 32} {r noParent : Int} {fuel : Nat}

theorem liveDirectory (bare : Bare fs) (i : Nat) : fs.liveDirectory i = true ↔ i = 0 := by
  rw [FsCtx.liveDirectory, Bool.and_eq_true, bare.live]
  refine ⟨fun both => both.1, fun first => ⟨first, ?_⟩⟩
  rw [first]
  exact bare.directory

theorem entries (bare : Bare fs) : (fs.itable 0).entries = [] := by
  rw [A1fsInode.entries, A1fsInode.blocks_of_empty bare.unused]
  rfl

theorem linksAgree (bare : Bare fs) : LinksAgree fs := by
  constructor
  · intro i alive regular
    rw [(bare.live i).mp alive, not_regular bare.directory] at regular
    cases regular
  · intro i directory
    rw [(bare.liveDirectory i).mp directory, bare.links, FsCtx.subdirectories, bare.entries]
    rfl
  · have root : (Finset.range fs.sb.sbInodesCount.toNat).filter (fun i => fs.liveDirectory i = true) =
        {0} := by
      ext i
      have some := bare.steady.shaped.inode
      rw [Finset.mem_filter, Finset.mem_range, bare.liveDirectory, Finset.mem_singleton]
      omega
    rw [bare.used, root]
    rfl

theorem newEntry_breaks (bare : Bare fs) (some : ¬ fs.NoInodeLeft)
    (kind : sIsreg mode = true ∨ sIsdir mode = true)
    (h : newEntry env fs path mode noParent = .ok (fs', r)) : ¬ LinksAgree fs' := by
  have count := bare.steady.shaped.inode
  rcases newEntry_ok h with ⟨-, -, none⟩ | ⟨ino, free, fs1, rfl, rest⟩
  · exact absurd (bare.counted.full_of_search bare.steady none) some
  · obtain ⟨inside, clear⟩ := getAvailableBit_free free
    have root : ino ≠ 0 := (live_ne_free ((bare.live 0).mpr rfl) clear).symm
    have taken : (fs.takeInode ino mode env.now).itable 0 = fs.itable 0 :=
      FsCtx.setInode_other root.symm
    have new : (fs.takeInode ino mode env.now).itable ino = createInode (fs.itable ino) mode env.now :=
      FsCtx.setInode_self
    have alive : (fs.takeInode ino mode env.now).live ino = true :=
      takeInode_live_self inside clear
    have kept : fs'.itable ino = createInode (fs.itable ino) mode env.now ∧ fs'.live ino = true := by
      rcases rest with ⟨-, rfl, -⟩ | ⟨p, walk, -, added, add, -⟩
      · exact ⟨new, alive⟩
      · have unused : ((fs.takeInode ino mode env.now).itable 0).lastUsedExtent = -1 := by
          rw [taken]
          exact bare.unused
        have count' : 0 < (fs.takeInode ino mode env.now).sb.sbInodesCount := count
        have parent : getInodeNum (fs.takeInode ino mode env.now) path 1 = .ok 0 :=
          (getInodeNum_empty _ count' unused).1
        rw [parent] at walk
        obtain rfl : p = 0 := by
          cases walk
          rfl
        rcases addDentry_ok add with ⟨-, rfl, -⟩ | ⟨-, fs2, addr, grown, -, write⟩
        · exact ⟨new, alive⟩
        · have touches := writeDentry_touches write
          rw [touches.others ino root, touches.live]
          rcases grown with ⟨-, rfl⟩ | ⟨-, block, inode, -, -, rfl⟩
          · exact ⟨new, alive⟩
          · refine ⟨?_, alive⟩
            rw [← new]
            exact FsCtx.setInode_other root
    obtain ⟨made, alive'⟩ := kept
    intro agree
    rcases kind with regular | directory
    · have links := agree.files ino alive' (by rw [made]; exact regular)
      rw [made] at links
      cases links
    · have links := agree.directories ino (by
        rw [FsCtx.liveDirectory, alive', made]
        exact directory)
      rw [made] at links
      have zero : (createInode (fs.itable ino) mode env.now).links = 0 := rfl
      omega

/-- Without the root no directory is left, but the superblock still counts one. -/
theorem rmdir_breaks (bare : Bare fs) (h : a1fsRmdir env fs path = .ok (fs', r)) : ¬ LinksAgree fs' := by
  have count := bare.steady.shaped.inode
  obtain ⟨-, root⟩ := getInodeNum_empty path count bare.unused
  obtain ⟨ino, walk, inside, removal⟩ := a1fsRmdir_ok h
  obtain rfl : ino = 0 := by
    rw [root, Except.ok.injEq] at walk
    split at walk <;> omega
  rcases removal with ⟨some, -⟩ | ⟨-, remove⟩
  · rw [bare.empty] at some
    omega
  · have marked := (live_iff.mp ((bare.live 0).mpr rfl)).2
    cases removeEntry_removed remove with
    | unmarked clear =>
      rw [clear] at marked
      cases marked
    | dropped _ result =>
      intro agree
      have used := agree.used
      have none : (Finset.range fs'.sb.sbInodesCount.toNat).filter (fun i => fs'.liveDirectory i = true) =
          ∅ := by
        rw [Finset.filter_eq_empty_iff]
        intro i _ directory
        rw [FsCtx.liveDirectory, Bool.and_eq_true, result] at directory
        obtain ⟨alive, -⟩ := directory
        by_cases first : i = 0
        · have flipped : (fs.inodeBits.flip 0).test i = true := (live_iff.mp alive).2
          rw [first, Bitmap.test_flip, marked] at flipped
          cases flipped
        · rw [dropInode_live first] at alive
          exact first ((bare.live i).mp alive)
      rw [none, Finset.card_empty, result] at used
      have kept : (fs.dropInode 0 env.now).sb.sbUsedDirsCount = 1 := bare.used
      rw [kept] at used
      cases used
    | @cleared p addr dirs _ walk' inside' search result =>
      have unused : ((fs.dropInode 0 env.now).itable 0).lastUsedExtent = -1 := by
        change ((fs.setInode 0 _).itable 0).lastUsedExtent = -1
        rw [FsCtx.setInode_self]
        rfl
      have count' : 0 < (fs.dropInode 0 env.now).sb.sbInodesCount := count
      have parent : getInodeNum (fs.dropInode 0 env.now) path 1 = .ok 0 :=
        (getInodeNum_empty _ count' unused).1
      rw [parent] at walk'
      obtain rfl : p = 0 := by
        cases walk'
        rfl
      have found := findIno_ok search
      rw [A1fsInode.entries, A1fsInode.blocks_of_empty unused] at found
      cases found

theorem no_file (bare : Bare fs) : ¬ IsFile fs path := by
  rintro ⟨-, i, reached, regular⟩
  rw [FsCtx.resolve] at reached
  cases tokens : strtok path.bytes with
  | nil =>
    rw [tokens] at reached
    cases reached
    rw [not_regular bare.directory] at regular
    cases regular
  | cons token rest =>
    have look : inodeLookup fs (0 : Nat) token = .ok (-1) :=
      lookup_empty bare.steady.shaped.inode bare.unused
    rw [tokens, walkTo, if_pos bare.directory, look] at reached
    simp at reached

theorem full_same (bare : Bare fs) (full : fs.NoInodeLeft)
    (h : newEntry env fs path mode noParent = .ok (fs', r)) : fs' = fs := by
  rw [newEntry_full (bare.counted.search_full bare.steady full)] at h
  cases h
  rfl

theorem step (bare : Bare fs) {event : Event} (documented : Documented fs event.call)
    (step : a1fs.Step fs event fs') : (MakesNothing fs event ∧ fs' = fs) ∨
      (¬ MakesNothing fs event ∧ ¬ LinksAgree fs') := by
  obtain ⟨fuel, returned⟩ := step
  obtain ⟨call, env, r⟩ := event
  dsimp only at documented returned
  have entry {path : CString} {mode : BitVec 32} {noParent : Int} (new : call.newMode = some mode)
      (keeps : OnRmdir fs call fun i => i ≠ 0) (kind : sIsreg mode = true ∨ sIsdir mode = true)
      (h : newEntry env fs path mode noParent = .ok (fs', r)) :
      (MakesNothing fs ⟨call, env, r⟩ ∧ fs' = fs) ∨
        (¬ MakesNothing fs ⟨call, env, r⟩ ∧ ¬ LinksAgree fs') := by
    by_cases full : fs.NoInodeLeft
    · exact .inl ⟨⟨fun _ => full, keeps⟩, bare.full_same full h⟩
    · refine .inr ⟨fun nothing => full (nothing.full ?_), bare.newEntry_breaks full kind h⟩
      dsimp only
      rw [new]
      simp
  cases call with
  | create path mode =>
    obtain ⟨regular, made⟩ := a1fsCreate_ok.mp returned
    exact entry rfl trivial (.inl regular) made
  | mkdir path mode =>
    refine entry rfl trivial (.inr ?_) returned
    have parts : (mode ||| sIfdir) &&& sIfmt = mode &&& sIfmt ||| sIfdir &&& sIfmt :=
      BitVec.and_or_distrib_right
    rw [sIsdir, beq_iff_eq, parts]
    rcases documented.2 with none | directory
    · rw [none]
      decide
    · rw [directory]
      decide
  | unlink path => exact absurd documented bare.no_file
  | rmdir path =>
    have breaks := bare.rmdir_breaks returned
    refine .inr ⟨fun nothing => ?_, breaks⟩
    obtain ⟨ino, walk, -⟩ := a1fsRmdir_ok returned
    obtain ⟨-, root⟩ := getInodeNum_empty path bare.steady.shaped.inode bare.unused
    have other := nothing.keepsRoot.holds walk
    rw [root, Except.ok.injEq] at walk
    split at walk <;> omega
  | truncate path size => exact absurd documented bare.no_file
  | write path buf offset => exact absurd documented.1 bare.no_file

end Bare

/-- The counts are right as long as nothing is made, and wrong after the first documented call that
    makes something. -/
theorem links_agree {fs : FsCtx} (run : a1fs.Reaches KeepsLinks fs) :
    LinksAgree fs ∧ ∀ (event : Event) (fs' : FsCtx), Documented fs event.call →
      a1fs.Step fs event fs' → (LinksAgree fs' ↔ MakesNothing fs event) := by
  have bare : Bare fs := by
    refine invariant_of_steady run (fun g => g.bare) ?_
    intro s event t _ bare keeps step
    rcases bare.step keeps.documented step with ⟨-, same⟩ | ⟨makes, -⟩
    · exact same ▸ bare
    · exact absurd keeps.nothing makes
  refine ⟨bare.linksAgree, fun event fs' documented step => ?_⟩
  rcases bare.step documented step with ⟨nothing, rfl⟩ | ⟨makes, breaks⟩
  · exact ⟨fun _ => nothing, fun _ => bare.linksAgree⟩
  · exact ⟨fun agree => absurd agree breaks, fun nothing => absurd nothing makes⟩

def rootDevice : FsCtx := formatted 16 1 1 ⟨0, 0⟩

theorem rootDevice_initial : Initial rootDevice := by
  have g : Geometry 16 1 1 :=
    ⟨by decide, by decide, by decide, by decide, by decide, by decide⟩
  exact ⟨_, formatted_initial g (by decide) (by decide) (by decide +kernel)⟩

/-- Nothing can be made without a free inode. -/
def fullRun : Option FsCtx :=
  runCalls KeepsLinks quiet 10 rootDevice [.create pathA regularMode, .mkdir pathB 0]

theorem links_agree_run : ∃ fs, fullRun = some fs ∧ LinksAgree fs := by
  have returns : fullRun.isSome = true := by decide +kernel
  obtain ⟨fs, run⟩ := Option.isSome_iff_exists.mp returns
  exact ⟨fs, run, (links_agree (runCalls_reaches (.initial rootDevice_initial) run)).1⟩

/-- A new file has no link. -/
def createdRun : Option FsCtx :=
  runCalls (fun fs event => Documented fs event.call) quiet 10 device [.create pathA regularMode]

theorem links_agree_fails :
    ∃ fs, a1fs.Reaches (fun fs event => Documented fs event.call) fs ∧ ¬ LinksAgree fs := by
  have unlinked : ∃ fs ∈ createdRun, fs.live 1 = true ∧ sIsreg (fs.itable 1).mode = true ∧
      (fs.itable 1).links = 0 := by decide +kernel
  obtain ⟨fs, run, alive, regular, links⟩ := unlinked
  refine ⟨fs, runCalls_reaches (.initial device_initial) run, fun agree => ?_⟩
  rw [agree.files 1 alive regular] at links
  cases links

end ExtentFs
