import ExtentFs.Guarantees.Isolation
import ExtentFs.Guarantees.Paths
import ExtentFs.Invariants.Contents

namespace ExtentFs

open Base Base.Bytes

/-- The byte arrays that the files of a file system should hold. -/
abbrev Contents := Nat → List Byte

namespace Contents

def change (h : Contents) (i : Option Nat) (f : List Byte → List Byte) : Contents :=
  i.elim h fun i => Function.update h i (f (h i))

/-- The byte arrays after a call; only calls that succeed change one. -/
def after (h : Contents) (fs : FsCtx) (event : Event) (fs' : FsCtx) : Contents :=
  match event.call with
  | .create _ _ | .mkdir _ _ => h.change (allocated fs fs') fun _ => []
  | .unlink _ | .rmdir _ => h
  | .truncate path size =>
    if 0 ≤ event.result then h.change (fs.resolve path) fun c => resize 0 c size.toNat else h
  | .write path buf offset =>
    if 0 ≤ event.result then h.change (fs.resolve path) fun c => overwrite 0 c offset buf else h

end Contents

/-- The file system beside the byte arrays that its calls should lead to. -/
def stored : TransitionSystem (FsCtx × Contents) Event := a1fs.withHistory (fun _ m => m = fun _ => []) Contents.after

def FsCtx.Stores (fs : FsCtx) (h : Contents) : Prop :=
  ∀ i, fs.live i = true → sIsreg (fs.itable i).mode = true → fs.Holds i (h i)

/-- The calls that leave the blocks of other inodes alone, find zeros behind the end of a file that
    grows, and write at an offset into the first extent. -/
structure KeepsContents (fs : FsCtx) (event : Event) : Prop where
  sound : Sound fs event
  zeroed : OnResize fs event.call fun i size => fs.ResizesZeroed (fs.itable i) size.toNat
  front : OnWrite fs event.call fun i buf offset => FrontLanding (fs.itable i) buf offset

section Stores

variable {fs fs' : FsCtx} {h : Contents} {i j : Nat} {c : List Byte} {path : CString} {event : Event}

theorem Contents.change_self {f : List Byte → List Byte} : h.change (some i) f i = f (h i) :=
  Function.update_self ..

theorem Contents.change_other {o : Option Nat} {f : List Byte → List Byte} (other : o ≠ some j) :
    h.change o f j = h j := by
  cases o with
  | none => rfl
  | some i =>
    apply Function.update_of_ne
    rintro rfl
    exact other rfl

theorem allocated_self : allocated fs fs = none := by
  rw [allocated, List.find?_eq_none]
  intro i _
  simp

theorem Isolated.holds (isolated : Isolated fs path fs') (alive : fs.live j = true)
    (regular : sIsreg (fs.itable j).mode = true) (other : fs.resolve path ≠ some j)
    (holds : fs.Holds j c) : fs'.Holds j c := by
  have keeps : fs.Keeps fs' j := by
    refine isolated.others j alive other fun parent => ?_
    have dir := (Option.filter_eq_some_iff.mp parent).2
    rw [not_regular dir] at regular
    cases regular
  exact holds.keep keeps.inode keeps.contents

theorem own_of_resolve (found : fs.resolve path = some i) (j : Nat) (other : fs.resolve path = some j) :
    j = i := by
  rw [found] at other
  exact (Option.some.inj other).symm

theorem FsCtx.Stores.after (stores : fs.Stores h) (isolated : Isolated fs path fs')
    (live : ∀ j, j ≠ i → fs'.live j = fs.live j)
    (modes : ∀ j, j ≠ i → (fs'.itable j).mode = (fs.itable j).mode)
    (own : ∀ j, fs.resolve path = some j → j = i) {h' : Contents}
    (others : ∀ j, j ≠ i → h' j = h j)
    (mine : fs'.live i = true → sIsreg (fs'.itable i).mode = true → fs'.Holds i (h' i)) : fs'.Stores h' := by
  intro j alive regular
  by_cases same : j = i
  · rw [same] at alive regular ⊢
    exact mine alive regular
  · rw [live j same] at alive
    rw [modes j same] at regular
    rw [others j same]
    exact isolated.holds alive regular (fun found => same (own j found)) (stores j alive regular)

theorem FsCtx.Stores.replaced (stores : fs.Stores h) (isolated : Isolated fs path fs')
    (changed : fs.FileStep fs' i) (found : fs.resolve path = some i) {f : List Byte → List Byte} {r : Int}
    (holds : fs'.Holds i (if 0 ≤ r then f (h i) else h i)) :
    fs'.Stores (if 0 ≤ r then h.change (fs.resolve path) f else h) := by
  refine stores.after isolated (fun j _ => changed.live j) (fun j _ => changed.modes j)
    (own_of_resolve found) (fun j other => ?_) fun _ _ => ?_
  · split
    · apply Contents.change_other
      rw [found]
      simpa using Ne.symm other
    · rfl
  · by_cases success : 0 ≤ r
    · rw [if_pos success] at holds ⊢
      rwa [found, Contents.change_self]
    · rw [if_neg success] at holds ⊢
      exact holds

theorem FsCtx.Stores.removed (stores : fs.Stores h) (isolated : Isolated fs path fs')
    (found : fs.resolve path = some i) (live : ∀ j, j ≠ i → fs'.live j = fs.live j)
    (modes : ∀ j, (fs'.itable j).mode = (fs.itable j).mode) (dead : fs'.live i = false) :
    fs'.Stores h := by
  refine stores.after isolated live (fun j _ => modes j) (own_of_resolve found) (fun _ _ => rfl) ?_
  intro alive
  rw [dead] at alive
  cases alive

theorem FsCtx.Stores.made (stores : fs.Stores h) (isolated : Isolated fs path fs')
    (live : ∀ j, j ≠ i → fs'.live j = fs.live j)
    (modes : ∀ j, j ≠ i → (fs'.itable j).mode = (fs.itable j).mode)
    (new : ∀ j, fs.resolve path ≠ some j) (empty : (fs'.itable i).size = 0) :
    fs'.Stores (h.change (some i) fun _ => []) := by
  refine stores.after isolated live modes (fun j found => absurd found (new j))
    (fun j other => Contents.change_other (by simpa using Ne.symm other)) fun _ _ => ?_
  rw [Contents.change_self]
  exact ⟨empty.symm, by simp, fun x inside => by simp at inside⟩

theorem Contents.after_new {call : Call} {env : Env} {mode : BitVec 32} {r : Int}
    (new : call.newMode = some mode) :
    h.after fs ⟨call, env, r⟩ fs' = h.change (allocated fs fs') fun _ => [] := by
  rcases Call.newMode_cases new with ⟨path, rfl⟩ | ⟨path, bits, rfl⟩
  · rfl
  · rfl

theorem FsCtx.Leaks.stores {mode : BitVec 32} {now : Timespec} {ino p : Nat}
    (leaks : fs.Leaks fs' path mode now ino p) (tree : Tree fs) (stores : fs.Stores h)
    (isolated : Isolated fs path fs') (new : ∀ j, fs.resolve path ≠ some j) :
    fs'.Stores (h.change (allocated fs fs') fun _ => []) := by
  have dead := (tree.dead_of_free leaks.clear).1
  have live (j : Nat) (other : j ≠ ino) : fs'.live j = fs.live j := by
    rw [leaks.result, takeInode_live_other other]
  have self : fs'.itable ino = createInode (fs.itable ino) mode now := by
    rw [leaks.result]
    exact FsCtx.setInode_self
  have kept (j : Nat) (other : j ≠ ino) : fs'.itable j = fs.itable j := by
    rw [leaks.result]
    exact FsCtx.setInode_other other
  have alive : fs'.live ino = true := by
    rw [leaks.result]
    exact takeInode_live_self leaks.inside leaks.clear
  rw [allocated_eq dead alive live]
  exact stores.made isolated live (fun j other => by rw [kept j other]) new (by rw [self]; rfl)

theorem Tree.stores (tree : Tree fs) (steady : Steady fs) (stores : fs.Stores h)
    (keeps : KeepsContents fs event) (step : a1fs.Step fs event fs') :
    fs'.Stores (h.after fs event fs') := by
  have isolated := tree.isolated steady keeps.sound step
  have nowhere {path : CString} (creatable : Creatable fs path) (j : Nat) : fs.resolve path ≠ some j :=
    fun found => tree.not_leads creatable (tree.walk_of_resolve found)
  cases tree.effect steady keeps.sound step with
  | refused new same =>
    subst same
    rw [Contents.after_new new, allocated_self]
    exact stores
  | leaks new creatable leaks =>
    rw [Contents.after_new new]
    exact leaks.stores tree stores isolated (nowhere creatable)
  | makes new creatable makes =>
    have adds := makes.adds tree
    obtain ⟨self, modes⟩ := makes.inodes tree
    rw [Contents.after_new new, adds.allocated]
    exact stores.made isolated adds.others modes (nowhere creatable) (by rw [self]; rfl)
  | unlinks found walk edge removed =>
    exact stores.removed isolated found removed.live removed.modes removed.dead
  | stops found stops result =>
    subst result
    exact fun j alive regular => (stores j alive regular).keep rfl fun _ _ => rfl
  | notEmpty same =>
    subst same
    exact stores
  | removes found walk edge removed =>
    exact stores.removed isolated found removed.live removed.modes removed.dead
  | @truncates path env i size r found regular alive small truncated changed =>
    have zeroed := keeps.zeroed.holds (getInodeNum_of_resolve found) rfl
    have holds := truncated.holds (stores i alive regular) (tree.files i regular) small
      (changed.exclusive.nodup i) zeroed
    exact stores.replaced isolated changed found holds
  | @writes path buf offset env i r found regular alive wrote changed =>
    have walk := getInodeNum_of_resolve found
    have holds := wrote.holds (stores i alive regular) (tree.files i regular)
      (keeps.sound.lands.holds walk).1 keeps.sound.documented.2 (changed.exclusive.nodup i)
      (fun beyond => keeps.zeroed.holds walk (if_pos beyond)) (keeps.front.holds walk)
    exact stores.replaced isolated changed found holds

end Stores

/-- The contents of files are those of byte arrays in runs of calls that leave the blocks of other
    inodes alone, find zeros behind a file that grows, and write into the first extent. -/
theorem contents_refine {fs : FsCtx} {h : Contents}
    (run : stored.Reaches (fun s event => KeepsContents s.1 event) (fs, h)) :
    ∀ i, fs.live i = true → sIsreg (fs.itable i).mode = true → fs.contents i = h i := by
  have sound : ∀ t, stored.Reaches (fun s event => KeepsContents s.1 event) t →
      Steady t.1 ∧ Tree t.1 := by
    intro t run
    exact tree_of_reaches (run.forget fun _ _ keeps => keeps.sound) fun _ _ sound => sound
  have stores : fs.Stores h := by
    refine run.relative sound (fun s => s.1.Stores s.2) ?_ ?_
    · rintro ⟨s, h⟩ ⟨first, -⟩
      obtain ⟨blocks, nInodes, d, now, g, rfl⟩ := Initial.shape first
      intro i alive regular
      rw [formatted_directory alive] at regular
      cases regular
    · rintro s event t ⟨steady, tree⟩ stores keeps ⟨step, record⟩
      rw [record]
      exact tree.stores steady stores keeps step
  intro i alive regular
  exact (stores i alive regular).contents

section Run

variable (guard : FsCtx → Event → Prop) [∀ fs event, Decidable (guard fs event)]

/-- The state and the byte arrays after a list of calls that all return and all meet a condition. -/
def runStored (env : Env) (fuel : Nat) : FsCtx × Contents → List Call → Option (FsCtx × Contents)
  | s, [] => some s
  | s, call :: rest =>
    match call.exec env fuel s.1 with
    | .ok (fs', r) =>
      if guard s.1 ⟨call, env, r⟩ then
        runStored env fuel (fs', s.2.after s.1 ⟨call, env, r⟩ fs') rest
      else none
    | .error _ => none

variable {guard}

theorem runStored_reaches {env : Env} {fuel : Nat} {s t : FsCtx × Contents} {calls : List Call}
    (run : stored.Reaches (fun s => guard s.1) s) (returns : runStored guard env fuel s calls = some t) :
    stored.Reaches (fun s => guard s.1) t := by
  induction calls generalizing s with
  | nil =>
    cases returns
    exact run
  | cons call rest ih =>
    rw [runStored] at returns
    split at returns
    · rename_i next r returned
      split at returns
      · rename_i allowed
        exact ih (.step run allowed ⟨⟨fuel, returned⟩, rfl⟩) returns
      · cases returns
    · cases returns

end Run

instance (fs : FsCtx) (inode : A1fsInode) (size : Nat) : Decidable (fs.ResizesZeroed inode size) :=
  decidable_of_iff (inode.lastUsedExtent ≠ -1 → inode.size < size →
    inode.size < 4096 * inode.blocks.length ∧ ∀ x < min size (zeroedFrom inode size), inode.size ≤ x →
      spread 4096 fs.data inode.blocks x = 0)
    ⟨fun zeroed used larger => ⟨(zeroed used larger).1, (zeroed used larger).2⟩,
      fun zeroed used larger => ⟨(zeroed used larger).1, (zeroed used larger).2⟩⟩

instance (inode : A1fsInode) (buf : List Byte) (offset : Nat) : Decidable (FrontLanding inode buf offset) :=
  inferInstanceAs (Decidable (_ ∨ _ ∨ _))

instance (fs : FsCtx) (event : Event) : Decidable (KeepsContents fs event) :=
  decidable_of_iff (Sound fs event ∧
    (OnResize fs event.call fun i size => fs.ResizesZeroed (fs.itable i) size.toNat) ∧
    OnWrite fs event.call fun i buf offset => FrontLanding (fs.itable i) buf offset)
    ⟨fun ⟨a, b, c⟩ => ⟨a, b, c⟩, fun ⟨a, b, c⟩ => ⟨a, b, c⟩⟩

/-- A file gets 100 bytes, two more blocks of zeros and two bytes, and is cut again. -/
def writtenRun : Option (FsCtx × Contents) :=
  runStored KeepsContents quiet 10 (device, fun _ => [])
    [.create pathA regularMode, .truncate pathA 100, .truncate pathA 5000, .write pathA [122#8, 122#8] 20,
      .truncate pathA 50]

theorem contents_refine_run : ∃ s, writtenRun = some s ∧ s.1.live 1 = true ∧
    sIsreg (s.1.itable 1).mode = true ∧ s.1.contents 1 = s.2 1 := by
  have returns : ∃ s ∈ writtenRun, s.1.live 1 = true ∧ sIsreg (s.1.itable 1).mode = true := by
    decide +kernel
  obtain ⟨⟨fs, h⟩, run, alive, regular⟩ := returns
  have start : stored.Initial (device, fun _ => []) := ⟨device_initial, rfl⟩
  have reached : stored.Reaches (fun s event => KeepsContents s.1 event) (fs, h) :=
    runStored_reaches (.initial start) run
  exact ⟨(fs, h), run, alive, regular, contents_refine reached 1 alive regular⟩

/-- Two bytes are written, and the second is cut off and comes back. -/
def regainedRun : Option (FsCtx × Contents) :=
  runStored Succeeds quiet 10 (device, fun _ => [])
    [.create pathA regularMode, .write pathA [122#8, 122#8] 0, .truncate pathA 1, .truncate pathA 2]

theorem contents_refine_fails : ∃ fs h, stored.Reaches (fun s event => Succeeds s.1 event) (fs, h) ∧
    ∃ i, fs.live i = true ∧ sIsreg (fs.itable i).mode = true ∧ fs.contents i = [122#8, 122#8] ∧
      h i = [122#8, 0#8] := by
  have regains : ∃ s ∈ regainedRun, s.1.live 1 = true ∧ sIsreg (s.1.itable 1).mode = true ∧
      s.1.contents 1 = [122#8, 122#8] ∧ s.2 1 = [122#8, 0#8] := by
    decide +kernel
  obtain ⟨⟨fs, h⟩, run, alive, regular, holds, should⟩ := regains
  have start : stored.Initial (device, fun _ => []) := ⟨device_initial, rfl⟩
  have reached : stored.Reaches (fun s event => Succeeds s.1 event) (fs, h) :=
    runStored_reaches (.initial start) run
  exact ⟨fs, h, reached, 1, alive, regular, holds, should⟩

end ExtentFs
