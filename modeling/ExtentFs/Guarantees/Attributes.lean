import ExtentFs.Guarantees.Paths
import ExtentFs.Guarantees.Resolution
import ExtentFs.Invariants.Served

namespace ExtentFs

open Base

/-- The path of a name in a directory. -/
def CString.child (path : CString) (name : List Byte) (noNul : 0#8 ∉ name) : CString where
  bytes := (if path.bytes = [slash] then [] else path.bytes) ++ slash :: name
  noNul := by
    have pathNoNul := path.noNul
    split
    · simpa [slash] using noNul
    · simp only [List.mem_append, List.mem_cons, not_or]
      exact ⟨pathNoNul, by decide, noNul⟩

/-- The names of entries have no slash in them. -/
def FsCtx.Plain (fs : FsCtx) : Prop := ∀ d name j, fs.Edge d name j → slash ∉ name

/-- The listing of a directory names what `getattr` finds below it, and `getattr` finds nothing else. -/
structure ListsAll (env : Env) (fs : FsCtx) (path : CString) (names : List (List Byte)) : Prop where
  listing : a1fsReaddir env fs path = .ok (0, names ++ [[46#8], [46#8, 46#8]])
  proper : ∀ name ∈ names, 0#8 ∉ name ∧ slash ∉ name ∧ name ≠ []
  stats : ∀ name (noNul : 0#8 ∉ name), slash ∉ name → name ≠ [] →
    (path.child name noNul).bytes.length < a1fsPathMax →
      (name ∈ names ∧ ∃ st, a1fsGetattr fs (path.child name noNul) = .ok (0, some st)) ∨
      (name ∉ names ∧ a1fsGetattr fs (path.child name noNul) = .ok (-eNoEnt, none))

section Plain

variable {fs fs' : FsCtx} {event : Event} {i : Nat} {t : Timespec}

theorem FsCtx.Plain.sub (plain : fs.Plain)
    (edges : ∀ d name j, fs'.Edge d name j → fs.Edge d name j) : fs'.Plain :=
  fun d name j edge => plain d name j (edges d name j edge)

theorem FsCtx.Plain.step (plain : fs.Plain) (tree : Tree fs) (effect : fs.TreeEffect fs' event)
    (shaped : WellShaped event.call.path) : fs'.Plain := by
  cases effect with
  | refused new same => exact same ▸ plain
  | leaks new creatable leaks =>
    rw [leaks.result]
    exact plain.sub fun d name j edge => (tree.takeInode_edge leaks.clear _ _ d name j).mp edge
  | makes new creatable makes =>
    intro d name j edge
    rcases (makes.edge tree d name j).mp edge with old | ⟨-, rfl, -⟩
    · exact plain d name j old
    · exact (strrchr_split (List.mem_of_mem_head? shaped.1)).1
  | @unlinks path env i p addr found walk edge removed =>
    have flipped : Tree (fs.flipBlocks (fs.itable i).blocks 0) := tree.flipBlocks
    have same : (fs.flipBlocks (fs.itable i).blocks 0).Plain := plain
    exact same.sub fun d name j edge => ((removed.edge flipped d name j).mp edge).1
  | stops found stops result =>
    rw [result]
    exact plain
  | notEmpty same => exact same ▸ plain
  | removes found walk edge removed => exact plain.sub fun d name j edge => ((removed.edge tree d name j).mp edge).1
  | truncates found regular alive small truncated changed =>
    exact plain.sub fun d name j edge => (changed.edge tree regular d name j).mp edge
  | writes found regular alive wrote changed =>
    exact plain.sub fun d name j edge => (changed.edge tree regular d name j).mp edge

theorem FsCtx.AllBlank.setTime (blank : fs.AllBlank) :
    (fs.setInode i { fs.itable i with iMtime := t }).AllBlank := by
  have cleared : (fs.setInode i { fs.itable i with iMtime := t }).timeless.AllBlank := by
    rw [timeless_setInode]
    exact blank
  exact cleared

theorem blank_of_driver (run : driver.Reaches (fun s x => ∀ event ∈ x.event, KeepsBlank s event) fs) :
    fs.AllBlank ∧ fs.Plain := by
  refine invariant_of_tended (P := fun fs => fs.AllBlank ∧ fs.Plain) run
    (fun s x keeps event made => (keeps event made).sound) ?_ ?_ ?_
  · intro s start
    obtain ⟨blocks, nInodes, d, now, g, rfl⟩ := Initial.shape start
    have none := formatted_blocks blocks nInodes d now
    refine ⟨fun i _ a member => ?_, fun i name j edge => absurd edge (no_edge (none i))⟩
    rw [A1fsInode.entries, none] at member
    cases member
  · rintro s i t ⟨blank, plain⟩
    exact ⟨blank.setTime, plain.sub fun d name j edge => edge_setTime.mp edge⟩
  · intro s x event s' steady tree both keeps made step effect
    have kept := keeps event made
    exact ⟨both.1.step tree steady kept step, both.2.step tree effect kept.sound.documented.shaped⟩

end Plain

section Child

variable {fs : FsCtx} {path : CString} {env : Env} {d : Nat} {name : List Byte}

theorem CString.child_absolute (noNul : 0#8 ∉ name) (absolute : path.bytes.head? = some slash) :
    (path.child name noNul).bytes.head? = some slash := by
  rw [CString.child]
  dsimp only
  split
  · rfl
  · rw [List.head?_append, absolute]
    rfl

theorem CString.child_tokens (noNul : 0#8 ∉ name) (plain : slash ∉ name) (some : name ≠ []) :
    strtok (path.child name noNul).bytes = strtok path.bytes ++ [name] := by
  rw [CString.child]
  dsimp only
  rw [strtok_last plain some]
  split
  · rename_i root
    rw [root]
    rfl
  · rfl

/-- What `getattr` answers for a path whose directory is there. -/
theorem Tree.getattr_leads (tree : Tree fs) (steady : Steady fs)
    (fits : (∀ token ∈ strtok path.bytes, token.length < a1fsNameMax) ∨ fs.AllBlank)
    (absolute : path.bytes.head? = some slash) (short : path.bytes.length < a1fsPathMax)
    (leads : fs.Leads (strtok path.bytes).dropLast d) (dir : sIsdir (fs.itable d).mode = true) :
    (∃ j st, fs.Leads (strtok path.bytes) j ∧ a1fsGetattr fs path = .ok (0, some st) ∧
      st.stMode = (fs.itable j).mode ∧ st.stSize = (fs.itable j).size) ∨
    (∀ j, ¬ fs.Leads (strtok path.bytes) j) ∧ a1fsGetattr fs path = .ok (-eNoEnt, none) := by
  obtain ⟨-, r, number, outcome⟩ := tree.getInodeNum_leads steady fits leads dir
  rw [a1fsGetattr, if_neg (by omega), if_neg (not_not.mpr absolute), number, ok_bind]
  rcases outcome with ⟨j, walk, rfl⟩ | ⟨nowhere, negative⟩
  · left
    have inside := (live_iff.mp (tree.alive_of_walk walk)).1
    have read : fs.inodeAt (j : Int) = .ok (fs.itable j) := inodeAt_ok.mpr ⟨⟨by omega, inside⟩, rfl⟩
    rw [if_neg (by omega), read]
    exact ⟨j, _, walk, rfl, rfl, rfl⟩
  · right
    rw [if_pos negative]
    exact ⟨nowhere, rfl⟩

/-- What `getattr` answers for a name in a directory. -/
theorem Tree.getattr_child (tree : Tree fs) (steady : Steady fs) (blank : fs.AllBlank)
    (shaped : WellShaped path) (found : fs.resolve path = some d) (dir : sIsdir (fs.itable d).mode = true)
    (noNul : 0#8 ∉ name) (plain : slash ∉ name) (some : name ≠ [])
    (short : (path.child name noNul).bytes.length < a1fsPathMax) :
    ((∃ j, fs.Edge d name j) ∧ ∃ st, a1fsGetattr fs (path.child name noNul) = .ok (0, Option.some st)) ∨
      (∀ j, ¬ fs.Edge d name j) ∧ a1fsGetattr fs (path.child name noNul) = .ok (-eNoEnt, none) := by
  have leads := tree.walk_of_resolve found
  have tokens : strtok (path.child name noNul).bytes = strtok path.bytes ++ [name] :=
    CString.child_tokens noNul plain some
  have below : fs.Leads (strtok (path.child name noNul).bytes).dropLast d := by
    rw [tokens, List.dropLast_concat]
    exact leads
  have edges (j : Nat) : fs.Leads (strtok (path.child name noNul).bytes) j ↔ fs.Edge d name j := by
    rw [tokens, tree.leads_child leads]
  rcases tree.getattr_leads steady (.inr blank) (CString.child_absolute noNul shaped.1) short below dir with
    ⟨j, st, walk, answer, -⟩ | ⟨nowhere, answer⟩
  · exact .inl ⟨⟨j, (edges j).mp walk⟩, st, answer⟩
  · exact .inr ⟨fun j edge => nowhere j ((edges j).mpr edge), answer⟩

/-- A listing and the attributes of what it lists agree, whatever has been asked before, while directories get
    blocks in which all names are empty. -/
theorem lists_all (run : driver.Reaches (fun s x => ∀ event ∈ x.event, KeepsBlank s event) fs)
    (shaped : WellShaped path) (found : fs.resolve path = some d) (dir : sIsdir (fs.itable d).mode = true) :
    ∃ names, ListsAll env fs path names := by
  obtain ⟨steady, tree⟩ := tree_of_driver run fun s x keeps event made => (keeps event made).sound
  obtain ⟨blank, plain⟩ := blank_of_driver run
  have listed := tree.listed d dir
  have readable := tree.readable steady d
  have alive := tree.alive_of_walk (tree.walk_of_resolve found)
  have member (name : List Byte) : name ∈ fs.names d ↔ ∃ j, fs.Edge d name j := by
    rw [listed.mem_names readable]
    exact exists_congr fun j => (and_iff_right dir).symm
  refine ⟨fs.names d, a1fsReaddir_names listed readable (blank d dir) (live_iff.mp alive).1 shaped.1
    (getInodeNum_of_resolve found), fun name named => ?_, fun name noNul noSlash some short => ?_⟩
  · obtain ⟨j, edge⟩ := (member name).mp named
    obtain ⟨a, -, -, proper⟩ := listed.entry_iff.mp edge.2
    exact ⟨proper.1, plain d name j edge, proper.2.1⟩
  · rw [member]
    rcases tree.getattr_child steady blank shaped found dir noNul noSlash some short with there | ⟨none, answer⟩
    · exact .inl there
    · exact .inr ⟨fun ⟨j, edge⟩ => none j edge, answer⟩

theorem lists_all_run : ∃ fs, blankRun = some fs ∧ ∃ names, ListsAll quiet fs pathB names := by
  have returns : ∃ fs ∈ blankRun, ∃ d ∈ fs.resolve pathB, sIsdir (fs.itable d).mode = true := by
    decide +kernel
  obtain ⟨fs, run, d, found, dir⟩ := returns
  have reached := driver_of_calls (runCalls_reaches (.initial device_initial) run)
  exact ⟨fs, run, lists_all reached (by decide) found dir⟩

end Child

abbrev Modes := Nat → BitVec 32

/-- A call that makes an inode gives it the mode. -/
def Modes.after (born : Modes) (fs : FsCtx) (x : Exchange) (fs' : FsCtx) : Modes :=
  match x.event.bind (·.call.newMode), allocated fs fs' with
  | some mode, some ino => Function.update born ino mode
  | _, _ => born

/-- The driver beside the modes with which its inodes were made. -/
def moded : TransitionSystem (FsCtx × Modes) Exchange :=
  driver.withHistory (fun _ born => born = fun _ => sIfdir ||| 0o777#32) Modes.after

/-- No inode is new, and all have kept their modes. -/
structure FsCtx.KeepsModes (fs fs' : FsCtx) : Prop where
  live : ∀ j, fs'.live j = true → fs.live j = true
  modes : ∀ j, (fs'.itable j).mode = (fs.itable j).mode

section Modes

variable {fs fs' fs'' : FsCtx} {i ino : Nat} {inode : A1fsInode} {path : CString} {call : Call} {env : Env}
  {now : Timespec}

namespace FsCtx.KeepsModes

theorem refl : fs.KeepsModes fs := ⟨fun _ alive => alive, fun _ => rfl⟩

theorem trans (first : fs.KeepsModes fs') (second : fs'.KeepsModes fs'') : fs.KeepsModes fs'' :=
  ⟨fun j alive => first.live j (second.live j alive), fun j => (second.modes j).trans (first.modes j)⟩

theorem setInode (mode : inode.mode = (fs.itable i).mode) : fs.KeepsModes (fs.setInode i inode) := by
  refine ⟨fun _ alive => alive, fun j => ?_⟩
  by_cases own : j = i
  · rw [own, FsCtx.setInode_self, mode]
  · rw [FsCtx.setInode_other own]

theorem touches (touches : fs.Touches fs' i) : fs.KeepsModes fs' :=
  ⟨fun j alive => by rwa [touches.live] at alive, fun j => (touches.sameExtents j).mode⟩

theorem flipBlocks {l : List Nat} {flipType : Nat} : fs.KeepsModes (fs.flipBlocks l flipType) :=
  ⟨fun _ alive => alive, fun _ => rfl⟩

theorem growth {n start : Nat} (growth : Growth fs i n now start inode) : inode.mode = (fs.itable i).mode := by
  cases growth with
  | append | attach => rfl

theorem mayAdd {needed : Prop} (added : fs.MayAdd i now needed fs') : fs.KeepsModes fs' := by
  rcases added with ⟨-, rfl⟩ | ⟨-, block, inode, grown, inside, rfl⟩
  · exact refl
  · have placed : fs.KeepsModes (fs.setInode i inode) := setInode (growth grown)
    exact ⟨placed.live, placed.modes⟩

theorem resized {size : Int} (effect : Resized fs i size now fs') : fs.KeepsModes fs' := by
  cases effect with
  | touched kept => exact touches kept
  | grown blocks grown bits inside kept =>
    exact ((setInode (growth grown)).trans flipBlocks).trans (touches kept)
  | shrunk shrinks bits kept =>
    have cut : fs.KeepsModes (fs.setInode i (shrunkInode (fs.itable i) size)) := setInode (by
      rw [shrunkInode]
      split <;> rfl)
    exact (cut.trans flipBlocks).trans (touches kept)

theorem dropInode (marked : fs.inodeBits.test ino = true) : fs.KeepsModes (fs.dropInode ino now) := by
  have reset : fs.KeepsModes (fs.setInode ino (resetInode (fs.itable ino) now)) := setInode rfl
  refine ⟨fun j alive => ?_, reset.modes⟩
  by_cases own : j = ino
  · rw [own] at alive ⊢
    exact live_iff.mpr ⟨(live_iff.mp alive).1, marked⟩
  · rwa [dropInode_live own] at alive

theorem removed (effect : Removed fs path ino now fs') : fs.KeepsModes fs' := by
  cases effect with
  | unmarked clear result => exact result ▸ setInode rfl
  | dropped marked result => exact result ▸ dropInode marked
  | cleared marked walk inside search result =>
    have credited : (fs.dropInode ino now).KeepsModes (fs.dropInode ino now).creditBlock :=
      ⟨fun _ alive => alive, fun _ => rfl⟩
    exact result ▸ ((dropInode marked).trans credited).trans (touches clearDentry_touches)

end FsCtx.KeepsModes

theorem mayAdd_live {needed : Prop} (added : fs.MayAdd i now needed fs') (j : Nat) : fs'.live j = fs.live j := by
  rcases added with ⟨-, rfl⟩ | ⟨-, block, inode, -, -, rfl⟩
  · rfl
  · rfl

/-- One inode is made, with a mode; the others stay what they are. -/
structure FsCtx.MakesInode (fs fs' : FsCtx) (ino : Nat) (mode : BitVec 32) : Prop where
  dead : fs.live ino = false
  alive : fs'.live ino = true
  mode : (fs'.itable ino).mode = mode
  live : ∀ j, j ≠ ino → fs'.live j = fs.live j
  modes : ∀ j, j ≠ ino → (fs'.itable j).mode = (fs.itable j).mode

theorem takeInode_makes {mode : BitVec 32}
    (free : getAvailableBit fs.sb fs.inodeBits .inode (-1) = .ok (ino : Int)) :
    fs.MakesInode (fs.takeInode ino mode now) ino mode := by
  obtain ⟨inside, clear⟩ := getAvailableBit_free free
  refine ⟨?_, takeInode_live_self inside clear, ?_, fun j other => takeInode_live_other other, fun j other => ?_⟩
  · rw [← Bool.not_eq_true, live_iff, clear]
    simp
  · have new : (fs.takeInode ino mode now).itable ino = createInode (fs.itable ino) mode now :=
      FsCtx.setInode_self
    rw [new]
    rfl
  · have kept : (fs.takeInode ino mode now).itable j = fs.itable j := FsCtx.setInode_other other
    rw [kept]

theorem FsCtx.MakesInode.same {mode : BitVec 32} (makes : fs.MakesInode fs' ino mode)
    (live : ∀ j, fs''.live j = fs'.live j) (modes : ∀ j, (fs''.itable j).mode = (fs'.itable j).mode) :
    fs.MakesInode fs'' ino mode := by
  refine ⟨makes.dead, ?_, ?_, fun j other => ?_, fun j other => ?_⟩
  · rw [live, makes.alive]
  · rw [modes, makes.mode]
  · rw [live, makes.live j other]
  · rw [modes, makes.modes j other]

/-- A call keeps the modes, but for that of an inode that it makes. -/
theorem Effect.modes (effect : Effect fs env call fs') : fs.KeepsModes fs' ∨
    ∃ mode ino, call.newMode = some mode ∧ fs.MakesInode fs' ino mode := by
  cases effect with
  | unchanged same => exact .inl (same ▸ .refl)
  | taken new free result => exact .inr ⟨_, _, new, result ▸ takeInode_makes free⟩
  | entered new free walk inside added search write =>
    have touched := writeDentry_touches write
    have kept := (FsCtx.KeepsModes.mayAdd added).trans (.touches touched)
    refine .inr ⟨_, _, new, (takeInode_makes free).same (fun j => ?_) kept.modes⟩
    rw [touched.live, mayAdd_live added]
  | resized walk inside asked effect => exact .inl (.resized effect)
  | written walk inside touches => exact .inl (.touches touches)
  | stopped unlinks walk inside stops result => exact .inl (result ▸ .flipBlocks)
  | removed removes walk inside passes bits effect =>
    exact .inl (FsCtx.KeepsModes.flipBlocks.trans (.removed effect))

theorem Modes.after_kept {born : Modes} {x : Exchange} (live : ∀ j, fs'.live j = true → fs.live j = true) :
    born.after fs x fs' = born := by
  have none : allocated fs fs' = none := by
    rw [allocated, List.find?_eq_none]
    intro j _ new
    simp only [Bool.and_eq_true, Bool.not_eq_true'] at new
    rw [live j new.2] at new
    cases new.1
  rw [Modes.after, none]
  cases x.event.bind (·.call.newMode) <;> rfl

theorem Modes.after_made {born : Modes} {x : Exchange} {event : Event} {mode : BitVec 32}
    (made : x.event = some event) (new : event.call.newMode = some mode) (makes : fs.MakesInode fs' ino mode) :
    born.after fs x fs' = Function.update born ino mode := by
  rw [Modes.after, made, Option.bind_some, new, allocated_eq makes.dead makes.alive makes.live]

theorem FsCtx.KeepsModes.born {born : Modes} (keeps : fs.KeepsModes fs') {x : Exchange}
    (holds : ∀ i, fs.live i = true → (fs.itable i).mode = born i) :
    ∀ i, fs'.live i = true → (fs'.itable i).mode = born.after fs x fs' i := by
  intro i alive
  rw [keeps.modes, Modes.after_kept keeps.live]
  exact holds i (keeps.live i alive)

/-- The only inode of a new file system. -/
theorem formatted_root {blocks nInodes d : Nat} (alive : (formatted blocks nInodes d now).live i = true) :
    (formatted blocks nInodes d now).itable i = rootInode now := by
  have marked := (live_iff.mp alive).2
  rw [formatted_marks, decide_eq_true_iff] at marked
  exact if_pos marked

theorem Modes.step {born : Modes} {x : Exchange} (steady : Steady fs) (step : driver.Step fs x fs')
    (holds : ∀ i, fs.live i = true → (fs.itable i).mode = born i) :
    ∀ i, fs'.live i = true → (fs'.itable i).mode = born.after fs x fs' i := by
  obtain ⟨fuel, served⟩ := step
  rcases serve_cases served with same | ⟨path, times, i, -, result⟩ | ⟨call, r, asked, answered, returned⟩
  · exact FsCtx.KeepsModes.born (same ▸ .refl) holds
  · exact FsCtx.KeepsModes.born (result ▸ .setInode rfl) holds
  · have made : x.event = some ⟨call, x.env, r⟩ := by
      rw [Exchange.event, asked, answered]
    rcases (Call.exec_effect steady.shaped.range returned).modes with keeps | ⟨mode, ino, new, makes⟩
    · exact keeps.born holds
    · rw [Modes.after_made made new makes]
      intro i alive
      by_cases own : i = ino
      · rw [own, Function.update_self, makes.mode]
      · rw [Function.update_of_ne own, makes.modes i own]
        exact holds i (by rwa [← makes.live i own])

/-- An inode has the mode with which it was made for as long as it lives, whatever is asked, and `getattr`
    reports it. -/
theorem modes_recorded {guard : FsCtx × Modes → Exchange → Prop} {born : Modes}
    (run : moded.Reaches guard (fs, born)) :
    (∀ i, fs.live i = true → (fs.itable i).mode = born i) ∧
      ∀ path st (i : Nat), a1fsGetattr fs path = .ok (0, some st) → getInodeNum fs path 0 = .ok (i : Int) →
        fs.live i = true → st.stMode = born i := by
  have steady (s : FsCtx × Modes) (run : moded.Reaches guard s) : Steady s.1 := by
    have reached : driver.Reaches (fun _ _ => True) s.1 := run.forget fun _ _ _ => trivial
    exact steady_of_driver reached
  have holds : ∀ i, fs.live i = true → (fs.itable i).mode = born i := by
    refine run.relative steady (fun s => ∀ i, s.1.live i = true → (s.1.itable i).mode = s.2 i) ?_ ?_
    · rintro ⟨s, born⟩ ⟨start, first⟩ i alive
      obtain ⟨blocks, nInodes, d, now, g, rfl⟩ := Initial.shape start
      dsimp only at first ⊢
      rw [first, formatted_root alive]
      rfl
    · rintro s x t steady holds - ⟨step, record⟩
      rw [record]
      exact Modes.step steady step holds
  refine ⟨holds, fun path st i answer number alive => ?_⟩
  unfold a1fsGetattr at answer
  split at answer
  · cases answer
  · split at answer
    · cases answer
    · rw [number, ok_bind, if_neg (by omega), bind_eq_ok] at answer
      obtain ⟨inode, read, answer⟩ := answer
      obtain ⟨-, rfl⟩ := inodeAt_ok.mp read
      cases answer
      exact holds i alive

theorem modes_recorded_run : ∃ fs born, moded.Reaches (fun _ _ => True) (fs, born) ∧ fs.live 2 = true ∧
    (∀ i, fs.live i = true → (fs.itable i).mode = born i) ∧
      ∀ path st (i : Nat), a1fsGetattr fs path = .ok (0, some st) → getInodeNum fs path 0 = .ok (i : Int) →
        fs.live i = true → st.stMode = born i := by
  have returns : ∃ out, serveAll 10 device [(quiet, .change (.create pathA regularMode)),
      (quiet, .change (.mkdir pathB 0)), (quiet, .utimens pathA (⟨1, 0⟩, ⟨2, 0⟩))] = .ok out ∧
      out.1.live 2 = true := by
    decide +kernel
  obtain ⟨⟨fs, replies⟩, returned, alive⟩ := returns
  have run : driver.Reaches (fun _ _ => True) fs := serveAll_reaches (.initial device_initial) returned
  obtain ⟨born, recorded⟩ : ∃ born, moded.Reaches (fun _ _ => True) (fs, born) :=
    run.recorded fun _ _ => ⟨_, rfl⟩
  exact ⟨fs, born, recorded, alive, modes_recorded recorded⟩

end Modes

end ExtentFs
