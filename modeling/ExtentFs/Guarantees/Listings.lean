import ExtentFs.Guarantees.Entries

namespace ExtentFs

open Base

/-- The names that `a1fs_readdir` lists are those that a lookup finds, each listed once. -/
def ListingsAgree (fs : FsCtx) : Prop :=
  ∀ env path d, path.bytes.head? = some slash → fs.resolve path = some d → fs.live d = true →
    sIsdir (fs.itable d).mode = true →
      ∃ names, a1fsReaddir env fs path = .ok (0, names ++ [[46#8], [46#8, 46#8]]) ∧ names.Nodup ∧
        ∀ name, 0#8 ∉ name → (name ∈ names ↔ ∃ j, 0 ≤ j ∧ inodeLookup fs d name = .ok j)

/-- The names in a block that is found free are empty. -/
def FsCtx.FindsBlank (fs : FsCtx) : Prop :=
  Yields (getAvailableBit fs.sb fs.blockBits .data 1) fun start =>
    0 ≤ start → ∀ a ∈ blockEntries start.toNat, fs.data (a + 4) = 0#8

/-- The calls that keep the names of free entries empty. -/
structure KeepsBlank (fs : FsCtx) (event : Event) : Prop where
  sound : Sound fs event
  enters : OnEntry fs event.env event.call fun fs _ p =>
    fs.findIno (fs.itable p) (-1) = .ok none → fs.FindsBlank

instance (fs : FsCtx) : Decidable fs.FindsBlank := inferInstanceAs (Decidable (Yields _ _))

instance (fs : FsCtx) (event : Event) : Decidable (KeepsBlank fs event) :=
  decidable_of_iff (Sound fs event ∧ OnEntry fs event.env event.call fun fs _ p =>
    fs.findIno (fs.itable p) (-1) = .ok none → fs.FindsBlank)
    ⟨fun ⟨a, b⟩ => ⟨a, b⟩, fun ⟨a, b⟩ => ⟨a, b⟩⟩

def FsCtx.AllBlank (fs : FsCtx) : Prop := ∀ d, sIsdir (fs.itable d).mode = true → fs.Blank d

section Blank

variable {fs fs' : FsCtx} {i p d ino block addr : Nat} {name : List Byte}

theorem FsCtx.FileStep.blank (step : fs.FileStep fs' i) (tree : Tree fs)
    (regular : sIsreg (fs.itable i).mode = true) (blank : fs.AllBlank) : fs'.AllBlank := by
  intro d dir
  rw [step.modes] at dir
  have differ : d ≠ i := by
    rintro rfl
    rw [not_regular dir] at regular
    cases regular
  exact (blank d dir).same (step.sameDirectory tree differ)

theorem FsCtx.AllBlank.takeInode (blank : fs.AllBlank) (tree : Tree fs)
    (free : fs.inodeBits.test ino = false) {mode : BitVec 32} {now : Timespec} :
    (fs.takeInode ino mode now).AllBlank := by
  intro d dir
  by_cases same : d = ino
  · intro a member
    rw [A1fsInode.entries, tree.takeInode_blocks free, same, (tree.dead_of_free free).2] at member
    cases member
  · have kept : (fs.takeInode ino mode now).itable d = fs.itable d := FsCtx.setInode_other same
    rw [kept] at dir
    exact (blank d dir).same (tree.takeInode_same free mode now d)

theorem FsCtx.BlockStep.blank (step : fs.BlockStep fs' p block) (finds : fs.FindsBlank)
    (blank : fs.AllBlank) : fs'.AllBlank := by
  intro d dir
  rw [step.modes] at dir
  by_cases same : d = p
  · subst same
    intro a member unused
    rw [step.adds.entries, List.mem_append] at member
    rcases member with old | new
    · have bytes := step.adds.bytes a old
      rw [bytes.inUse] at unused
      rw [bytes 4 (by omega)]
      exact blank d dir a old unused
    · rw [step.names a new]
      exact finds block step.found (by omega) a new
  · exact (blank d dir).same (step.sameDirectory same)

theorem FsCtx.EnterStep.blank (step : fs.EnterStep fs' p addr ino name) (tree : Tree fs)
    (blank : fs.AllBlank) : fs'.AllBlank := by
  intro d dir
  rw [step.modes] at dir
  by_cases same : d = p
  · subst same
    exact (blank d dir).enters step.enters
  · exact (blank d dir).same (step.sameDirectory tree same)

theorem FsCtx.RemoveStep.blank (step : fs.RemoveStep fs' p addr ino name) (tree : Tree fs)
    (blank : fs.AllBlank) : fs'.AllBlank := by
  intro d dir
  rw [step.modes] at dir
  by_cases removed : d = ino
  · intro a member
    rw [A1fsInode.entries, removed, step.gone] at member
    cases member
  · by_cases same : d = p
    · subst same
      exact (blank d dir).clears step.clears
    · exact (blank d dir).same (step.sameDirectory tree same removed)

theorem FsCtx.AllBlank.step (blank : fs.AllBlank) (tree : Tree fs) (steady : Steady fs) {event : Event}
    (keeps : KeepsBlank fs event) (step : a1fs.Step fs event fs') : fs'.AllBlank := by
  cases tree.effect steady keeps.sound step with
  | refused new same => exact same ▸ blank
  | leaks new creatable leaks =>
    rw [leaks.result]
    exact blank.takeInode tree leaks.clear
  | @makes call env mode ino p new creatable makes =>
    obtain ⟨fs1, addr, block, enters⟩ := makes.steps
    have taken : Tree (fs.takeInode ino mode env.now) := tree.takeInode makes.clear makes.inside
    have blank1 : (fs.takeInode ino mode env.now).AllBlank := blank.takeInode tree makes.clear
    rcases block with rfl | ⟨needed, block, step⟩
    · exact enters.blank taken blank1
    · have alive : (fs.takeInode ino mode env.now).live p = true :=
        (takeInode_live makes.clear (tree.alive_of_walk makes.parent)).2
      exact enters.blank (step.tree taken alive)
        (step.blank (keeps.enters.holds new makes.free makes.number needed) blank1)
  | unlinks found walk edge removed => exact removed.blank tree.flipBlocks blank
  | stops found stops result =>
    rw [result]
    exact blank
  | notEmpty same => exact same ▸ blank
  | removes found walk edge removed => exact removed.blank tree blank
  | truncates found regular alive small truncated changed => exact changed.blank tree regular blank
  | writes found regular alive wrote changed => exact changed.blank tree regular blank

end Blank

theorem Tree.listingsAgree {fs : FsCtx} (tree : Tree fs) (steady : Steady fs)
    (blank : fs.AllBlank) : ListingsAgree fs := by
  intro env path d absolute found alive dir
  have listed := tree.listed d dir
  have readable := tree.readable steady d
  have count := (live_iff.mp alive).1
  refine ⟨fs.names d, a1fsReaddir_names listed readable (blank d dir) count absolute
    (getInodeNum_of_resolve found), listed.names_nodup readable (tree.nodup d), fun name noNul => ?_⟩
  rw [listed.mem_names readable, listed.lookup_iff readable count noNul]

theorem keepsBlank_reaches {fs : FsCtx} (run : a1fs.Reaches KeepsBlank fs) :
    Steady fs ∧ Tree fs ∧ fs.AllBlank := by
  have sound : ∀ t, a1fs.Reaches KeepsBlank t → Steady t ∧ Tree t := by
    intro t run
    exact tree_of_reaches run fun _ _ keeps => keeps.sound
  have blank : fs.AllBlank := by
    refine run.relative sound FsCtx.AllBlank (fun s start => ?_) ?_
    · obtain ⟨blocks, nInodes, d, now, g, rfl⟩ := Initial.shape start
      intro d _ a member
      rw [A1fsInode.entries, formatted_blocks] at member
      cases member
    · intro s event t both blank keeps step
      exact blank.step both.2 both.1 keeps step
  obtain ⟨steady, tree⟩ := sound fs run
  exact ⟨steady, tree, blank⟩

/-- Listings and lookups agree while directories get blocks in which all names are empty. -/
theorem listings_agree {fs : FsCtx} (run : a1fs.Reaches KeepsBlank fs) : ListingsAgree fs := by
  obtain ⟨steady, tree, blank⟩ := keepsBlank_reaches run
  exact tree.listingsAgree steady blank

/-- A directory gets entries, also in a block that a file without bytes at the places of the
    names has given up. -/
def blankRun : Option FsCtx :=
  runCalls KeepsBlank quiet 10 device
    [.create pathA regularMode, .write pathA [122#8] 8, .unlink pathA, .mkdir pathB 0,
      .create pathBC regularMode]

theorem listings_agree_run : ∃ fs, blankRun = some fs ∧ ListingsAgree fs := by
  have returns : blankRun.isSome := by decide +kernel
  obtain ⟨fs, run⟩ := Option.isSome_iff_exists.mp returns
  exact ⟨fs, run, listings_agree (runCalls_reaches (.initial device_initial) run)⟩

/-- A directory gets a block in which a removed file had a byte at the place of a name. -/
def recycledRun : Option FsCtx :=
  runCalls (fun fs event => Documented fs event.call) quiet 10 device
    [.create pathA regularMode, .write pathA [122#8] 260, .unlink pathA, .mkdir pathB 0,
      .create pathBC regularMode]

theorem listings_agree_fails :
    ∃ fs, a1fs.Reaches (fun fs event => Documented fs event.call) fs ∧ ¬ ListingsAgree fs := by
  have recycled : ∃ fs ∈ recycledRun, fs.resolve pathB = some 1 ∧ fs.live 1 = true ∧
      sIsdir (fs.itable 1).mode = true ∧
      a1fsReaddir quiet fs pathB = .ok (0, [[99#8], [122#8]] ++ [[46#8], [46#8, 46#8]]) ∧
      inodeLookup fs 1 [122#8] = .ok (-1) := by decide +kernel
  obtain ⟨fs, run, found, alive, dir, listing, missing⟩ := recycled
  refine ⟨fs, runCalls_reaches (.initial device_initial) run, fun agree => ?_⟩
  obtain ⟨names, same, -, exact_⟩ := agree quiet pathB 1 rfl found alive dir
  rw [listing] at same
  have equal : [[99#8], [122#8]] = names :=
    List.append_cancel_right (congrArg Prod.snd (Except.ok.inj same))
  obtain ⟨j, nonneg, look⟩ := (exact_ [122#8] (by decide)).mp (by rw [← equal]; decide)
  obtain rfl : -1 = j := Except.ok.inj (missing.symm.trans look)
  exact absurd nonneg (by decide)

end ExtentFs
