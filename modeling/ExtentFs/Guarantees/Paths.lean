import Mathlib.Logic.Function.Basic
import ExtentFs.Guarantees.Entries
import ExtentFs.Guarantees.Leaks
import ExtentFs.Invariants.Names

namespace ExtentFs

open Base

/-- Paths, as lists of components, and the inodes that they name. -/
abbrev PathMap := List (List Byte) → Option Nat

def allocated (fs fs' : FsCtx) : Option Nat :=
  (List.range fs'.sb.sbInodesCount.toNat).find? fun i => !fs.live i && fs'.live i

def PathMap.after (m : PathMap) (fs : FsCtx) (event : Event) (fs' : FsCtx) : PathMap :=
  match event.call with
  | .create _ _ | .mkdir _ _ => Function.update m event.call.tokens (allocated fs fs')
  | .unlink _ | .rmdir _ => Function.update m event.call.tokens none
  | .truncate _ _ | .write _ _ _ => m

def rootMap : PathMap := Function.update (fun _ => none) [] (some 0)

/-- The file system beside the map that its calls should lead to. -/
def mapped : TransitionSystem (FsCtx × PathMap) Event := a1fs.withHistory (fun _ m => m = rootMap) PathMap.after

def FsCtx.Follows (fs : FsCtx) (m : PathMap) : Prop := ∀ tokens j, fs.Leads tokens j ↔ m tokens = some j

/-- The paths that resolve are those of a map, and they name distinct live inodes. -/
structure MapsPaths (fs : FsCtx) (m : PathMap) : Prop where
  paths : fs.Follows m
  resolve : ∀ path, WellShaped path → fs.resolve path = m (strtok path.bytes)
  live : ∀ tokens j, m tokens = some j → fs.live j = true
  distinct : ∀ tokens tokens' j, m tokens = some j → m tokens' = some j → tokens = tokens'

/-- A new entry finds an entry that is free, or a block of the data region for an extent of its own. -/
def FindsRoom (fs : FsCtx) (env : Env) (call : Call) : Prop :=
  Yields (getAvailableBit fs.sb fs.inodeBits .inode (-1)) fun ino => 0 ≤ ino →
    OnEntry fs env call fun fs _ p => fs.findIno (fs.itable p) (-1) = .ok none →
      fs.StartsExtent p 1 ∧ fs.HasBlock

instance (fs : FsCtx) (env : Env) (call : Call) : Decidable (FindsRoom fs env call) :=
  inferInstanceAs (Decidable (Yields _ _))

theorem FsCtx.Leaks.noRoom {fs fs' : FsCtx} {call : Call} {env : Env} {mode : BitVec 32} {ino p : Nat}
    (leaks : fs.Leaks fs' call.path mode env.now ino p) (new : call.newMode = some mode) :
    ¬ FindsRoom fs env call := by
  intro room
  obtain ⟨block, negative, none⟩ := leaks.noBlock
  obtain ⟨-, block', found, -⟩ := (room _ leaks.free (by omega)).holds new leaks.free leaks.number leaks.full
  rw [none] at found
  cases found
  omega

/-- The calls that report truthfully whether a path has been added or removed. -/
structure KeepsPaths (fs : FsCtx) (event : Event) : Prop where
  sound : Sound fs event
  room : event.env.errno = 0 → FindsRoom fs event.env event.call
  passes : event.env.errno = 0 →
    OnUnlink fs event.call fun i => ∀ k ∈ (fs.itable i).usedSlots, ¬ StopsAt fs i k

instance (fs : FsCtx) (event : Event) : Decidable (KeepsPaths fs event) :=
  decidable_of_iff (Sound fs event ∧ (event.env.errno = 0 → FindsRoom fs event.env event.call) ∧
    (event.env.errno = 0 →
      OnUnlink fs event.call fun i => ∀ k ∈ (fs.itable i).usedSlots, ¬ StopsAt fs i k))
    ⟨fun ⟨a, b, c⟩ => ⟨a, b, c⟩, fun ⟨a, b, c⟩ => ⟨a, b, c⟩⟩

section Maps

variable {fs fs' : FsCtx} {m : PathMap} {ino j : Nat} {mode : BitVec 32} {tokens : List (List Byte)}

theorem allocated_eq (dead : fs.live ino = false) (alive : fs'.live ino = true)
    (others : ∀ j, j ≠ ino → fs'.live j = fs.live j) : allocated fs fs' = some ino := by
  have inside := (live_iff.mp alive).1
  have only (i : Nat) (new : (!fs.live i && fs'.live i) = true) : i = ino := by
    by_contra differ
    rw [others i differ] at new
    simp at new
  cases found : allocated fs fs' with
  | none =>
    have missing := List.find?_eq_none.mp found ino (List.mem_range.mpr (by omega))
    rw [dead, alive] at missing
    simp at missing
  | some i =>
    have new := List.find?_some found
    rw [only i new]

theorem FsCtx.Adds.allocated (adds : fs.Adds fs' tokens mode ino) :
    ExtentFs.allocated fs fs' = some ino :=
  allocated_eq adds.dead adds.alive adds.others

theorem FsCtx.Adds.follows (adds : fs.Adds fs' tokens mode ino) (follows : fs.Follows m)
    (unnamed : ∀ j, ¬ fs.Leads tokens j) : fs'.Follows (Function.update m tokens (some ino)) := by
  intro whole j
  rw [adds.paths, follows]
  by_cases same : whole = tokens
  · subst same
    have none := unnamed j
    rw [follows] at none
    rw [Function.update_self]
    simp [none, eq_comm]
  · rw [Function.update_of_ne same]
    simp [same]

theorem FsCtx.Deletes.follows (deletes : fs.Deletes fs' tokens ino) (follows : fs.Follows m) :
    fs'.Follows (Function.update m tokens none) := by
  intro whole j
  rw [deletes.paths, follows]
  by_cases same : whole = tokens
  · subst same
    rw [Function.update_self]
    simp
  · rw [Function.update_of_ne same]
    simp [same]

theorem FsCtx.Follows.same (follows : fs.Follows m)
    (edges : ∀ d name j, fs'.Edge d name j ↔ fs.Edge d name j) : fs'.Follows m := by
  intro whole j
  rw [Tree.leads_same edges]
  exact follows whole j

theorem PathMap.after_new {call : Call} {env : Env} {mode : BitVec 32} {r : Int}
    (new : call.newMode = some mode) :
    m.after fs ⟨call, env, r⟩ fs' = Function.update m call.tokens (allocated fs fs') := by
  rcases Call.newMode_cases new with ⟨path, rfl⟩ | ⟨path, bits, rfl⟩
  · rfl
  · rfl

theorem Tree.follows (tree : Tree fs) (steady : Steady fs) (follows : fs.Follows m) {event : Event}
    (keeps : KeepsPaths fs event) (success : 0 ≤ event.result) (step : a1fs.Step fs event fs') :
    fs'.Follows (m.after fs event fs') := by
  -- a failure that is reported as success has `errno` 0
  have untouched {env : Env} (code : (0 : Int) ≤ -(env.errno : Int)) : env.errno = 0 := by omega
  cases tree.effect steady keeps.sound step with
  | refused new same => cases success
  | leaks new creatable leaks => exact absurd (keeps.room (untouched success)) (leaks.noRoom new)
  | makes new creatable makes =>
    have adds := makes.adds tree
    rw [PathMap.after_new new, adds.allocated]
    exact adds.follows follows fun j => tree.not_leads creatable
  | @unlinks path env i p addr found walk edge removed =>
    have leads : fs.Leads (strtok path.bytes) i := tree.walk_of_resolve found
    have deletes := removed.deletes tree.flipBlocks walk
      (tree.leads_split keeps.sound.documented.1 leads edge)
    exact deletes.follows follows
  | stops found stops result =>
    have passes := (keeps.passes (untouched success)).holds (getInodeNum_of_resolve found)
    exact absurd stops.1 (passes _ stops.1.1)
  | notEmpty same => cases success
  | @removes path env i p addr found walk edge removed =>
    have leads : fs.Leads (strtok path.bytes) i := tree.walk_of_resolve found
    exact (removed.deletes tree walk (tree.leads_split keeps.sound.documented.1 leads edge)).follows follows
  | truncates found regular alive small truncated changed =>
    exact follows.same (changed.edge tree regular)
  | writes found regular alive wrote changed => exact follows.same (changed.edge tree regular)

theorem Geometry.follows {blocks nInodes d : Nat} {now : Timespec} :
    (formatted blocks nInodes d now).Follows rootMap := by
  intro tokens j
  cases tokens with
  | nil =>
    rw [FsCtx.Leads, Walk.nil_iff, rootMap, Function.update_self, Option.some.injEq]
    exact eq_comm
  | cons token rest =>
    rw [FsCtx.Leads, Walk.cons_iff, rootMap, Function.update_of_ne (List.cons_ne_nil _ _)]
    constructor
    · rintro ⟨k, edge, -⟩
      exact absurd edge (no_edge (formatted_blocks blocks nInodes d now 0))
    · exact nofun

theorem Tree.mapsPaths (tree : Tree fs) (steady : Steady fs) (follows : fs.Follows m) :
    MapsPaths fs m := by
  refine ⟨follows, fun path shaped => ?_, fun tokens j maps => ?_, fun tokens tokens' j maps maps' => ?_⟩
  · ext i
    rw [tree.resolve_iff steady shaped]
    exact follows _ i
  · exact tree.alive_of_walk ((follows tokens j).mpr maps)
  · exact tree.forest.path_unique ((follows tokens j).mpr maps) ((follows tokens' j).mpr maps')

end Maps

/-- The directory tree refines a map of paths in runs of successful calls that leave the blocks of
    other inodes alone and report failures. -/
theorem paths_refine_map {fs : FsCtx} {m : PathMap}
    (run : mapped.Reaches (fun s event => KeepsPaths s.1 event ∧ 0 ≤ event.result) (fs, m)) :
    MapsPaths fs m := by
  have sound : ∀ t, mapped.Reaches (fun s event => KeepsPaths s.1 event ∧ 0 ≤ event.result) t →
      Steady t.1 ∧ Tree t.1 := by
    intro t run
    exact tree_of_reaches (run.forget fun _ _ allowed => allowed.1.sound) fun _ _ sound => sound
  have follows : fs.Follows m := by
    refine run.relative sound (fun s => s.1.Follows s.2) ?_ ?_
    · rintro ⟨s, m⟩ ⟨first, rfl⟩
      obtain ⟨blocks, nInodes, d, now, g, rfl⟩ := Initial.shape first
      exact Geometry.follows
    · rintro s event t ⟨steady, tree⟩ follows ⟨keeps, success⟩ ⟨step, record⟩
      rw [record]
      exact tree.follows steady follows keeps success step
  obtain ⟨steady, tree⟩ := sound (fs, m) run
  exact tree.mapsPaths steady follows

/-- A file and a directory with an entry are made, and another file is removed. -/
def mappedRun : Option FsCtx :=
  runCalls (fun fs event => KeepsPaths fs event ∧ 0 ≤ event.result) quiet 10 device
    [.create pathA regularMode, .truncate pathA 100, .mkdir pathB 0, .create pathBC regularMode,
      .unlink pathA]

theorem paths_refine_map_run : ∃ fs m, mappedRun = some fs ∧ MapsPaths fs m := by
  have returns : mappedRun.isSome := by decide +kernel
  obtain ⟨fs, run⟩ := Option.isSome_iff_exists.mp returns
  obtain ⟨m, recorded⟩ : ∃ m, mapped.Reaches (fun s event => KeepsPaths s.1 event ∧ 0 ≤ event.result) (fs, m) :=
    (runCalls_reaches (.initial device_initial) run).recorded fun _ _ => ⟨_, rfl⟩
  exact ⟨fs, m, run, paths_refine_map recorded⟩

/-- A call under its documented assumptions that reports success. -/
def Succeeds (fs : FsCtx) (event : Event) : Prop := Documented fs event.call ∧ 0 ≤ event.result

instance (fs : FsCtx) (event : Event) : Decidable (Succeeds fs event) :=
  inferInstanceAs (Decidable (_ ∧ _))

/-- A file gives up a block that it still covers, and a directory is made. -/
def freedRun : Option FsCtx :=
  runCalls Succeeds quiet 10 device
    [.create pathA regularMode, .truncate pathA 8192, .truncate pathA 4096, .mkdir pathB 0]

/-- The directory's first entry gets into that block, and is lost when the file grows. -/
theorem paths_refine_map_fails :
    ∃ fs m, mapped.Reaches (fun s event => Succeeds s.1 event) (fs, m) ∧ ¬ MapsPaths fs m := by
  have loses : ∃ fs ∈ freedRun, Succeeds fs ⟨.create pathBC regularMode, quiet, 0⟩ ∧
      ∃ made, Call.exec quiet 10 fs (.create pathBC regularMode) = .ok made ∧ made.2 = 0 ∧
        allocated fs made.1 = some 3 ∧ Succeeds made.1 ⟨.truncate pathA 12288, quiet, 0⟩ ∧
        ∃ grown, Call.exec quiet 10 made.1 (.truncate pathA 12288) = .ok grown ∧ grown.2 = 0 ∧
          grown.1.resolve pathBC = none := by
    decide +kernel
  obtain ⟨fs, run, creates, ⟨fs1, r1⟩, made, rfl, new, truncates, ⟨fs2, r2⟩, grown, rfl, lost⟩ := loses
  obtain ⟨m, recorded⟩ : ∃ m, mapped.Reaches (fun s event => Succeeds s.1 event) (fs, m) :=
    (runCalls_reaches (.initial device_initial) run).recorded fun _ _ => ⟨_, rfl⟩
  have first : mapped.Reaches (fun s event => Succeeds s.1 event)
      (fs1, Function.update m (strtok pathBC.bytes) (allocated fs fs1)) :=
    recorded.step creates ⟨⟨10, made⟩, rfl⟩
  have second : mapped.Reaches (fun s event => Succeeds s.1 event)
      (fs2, Function.update m (strtok pathBC.bytes) (allocated fs fs1)) :=
    first.step truncates ⟨⟨10, grown⟩, rfl⟩
  refine ⟨fs2, _, second, fun maps => ?_⟩
  have found : none = _ := lost.symm.trans (maps.resolve pathBC (by decide))
  rw [Function.update_self, new] at found
  cases found

end ExtentFs
