import ExtentFs.Guarantees.Attributes
import ExtentFs.Guarantees.Contents
import ExtentFs.Guarantees.Readback
import ExtentFs.Model.Specification

namespace ExtentFs

open Base Base.Bytes

def FsCtx.nodeOf (fs : FsCtx) (i : Nat) : Node (BitVec 32) Byte :=
  if sIsdir (fs.itable i).mode then .directory (fs.itable i).mode else .file (fs.itable i).mode (fs.contents i)

/-- The image holds what its users see: each path names what its inode is, or nothing. -/
structure FsCtx.Displays (fs : FsCtx) (v : Visible) : Prop where
  named : ∀ tokens i, fs.Leads tokens i → v.node tokens = some (fs.nodeOf i)
  absent : ∀ tokens, (∀ i, ¬ fs.Leads tokens i) → v.node tokens = none

/-- There are no symbolic links and no devices. -/
def FsCtx.Kinds (fs : FsCtx) : Prop :=
  ∀ i, fs.live i = true → sIsdir (fs.itable i).mode = true ∨ sIsreg (fs.itable i).mode = true

/-- A request for bytes starts behind the end of the file, or it ends before that and the search for its offset
    ends in the first slot, with the bytes in this slot or the one behind it. -/
def A1fsInode.ReadsFront (inode : A1fsInode) (size offset : Nat) : Prop :=
  inode.size < offset ∨ offset + size ≤ inode.size ∧
    (size = 0 ∨ offset = 0 ∨ lands inode.fields offset = true ∧ (inode.iExtent 0).size ≠ 0)

/-- The requests whose callbacks keep to what is expected of them: lookups below a directory, bytes of the first
    extents, and calls that leave the blocks of other inodes alone, report truthfully, find zeros and empty names
    in new blocks and write into the first extent. -/
def Regular (fs : FsCtx) (x : Exchange) : Prop :=
  match x.request with
  | .statfs _ => True
  | .getattr path => WellShaped path ∧ (fs.parent path).isSome
  | .readdir path => IsDirectory fs path
  | .read path size offset => IsFile fs path ∧ offset % 4096 + size ≤ 4096 ∧
    ∀ i ∈ fs.resolve path, (fs.itable i).ReadsFront size offset
  | .utimens path _ => WellShaped path ∧ (fs.parent path).isSome ∧ (x.env.errno = 0 → (fs.resolve path).isSome)
  | .change _ => ∀ event ∈ x.event, KeepsPaths fs event ∧ KeepsContents fs event ∧ KeepsBlank fs event

section Nodes

variable {fs fs' : FsCtx} {v : Visible} {tokens parent : List (List Byte)} {name : List Byte} {i ino : Nat}
  {mode : BitVec 32} {node : Node (BitVec 32) Byte} {contents changed : List Byte}

theorem nodeOf_directory (dir : sIsdir (fs.itable i).mode = true) :
    fs.nodeOf i = .directory (fs.itable i).mode := if_pos dir

theorem nodeOf_file (regular : sIsreg (fs.itable i).mode = true) :
    fs.nodeOf i = .file (fs.itable i).mode (fs.contents i) := by
  rw [FsCtx.nodeOf, if_neg]
  intro dir
  rw [not_regular dir] at regular
  cases regular

theorem FsCtx.Kinds.nodeOf (kinds : fs.Kinds) (alive : fs.live i = true)
    (mode : (fs'.itable i).mode = (fs.itable i).mode)
    (contents : sIsreg (fs.itable i).mode = true → fs'.contents i = fs.contents i) : fs'.nodeOf i = fs.nodeOf i := by
  rcases kinds i alive with dir | regular
  · rw [nodeOf_directory dir, nodeOf_directory (by rwa [mode]), mode]
  · rw [nodeOf_file regular, nodeOf_file (by rwa [mode]), mode, contents regular]

namespace FsCtx.Displays

theorem isDirectory (displays : fs.Displays v) (leads : fs.Leads tokens i)
    (dir : sIsdir (fs.itable i).mode = true) : v.IsDirectory tokens :=
  ⟨_, by rw [displays.named tokens i leads, nodeOf_directory dir]⟩

theorem named_iff (displays : fs.Displays v) : v.node tokens ≠ none ↔ ∃ i, fs.Leads tokens i := by
  constructor
  · intro named
    by_contra nowhere
    exact named (displays.absent tokens fun i leads => nowhere ⟨i, leads⟩)
  · rintro ⟨i, leads⟩
    rw [displays.named tokens i leads]
    exact Option.some_ne_none _

theorem same (displays : fs.Displays v) (tree : Tree fs) (paths : ∀ tokens i, fs'.Leads tokens i ↔ fs.Leads tokens i)
    (nodes : ∀ i, fs.live i = true → fs'.nodeOf i = fs.nodeOf i) : fs'.Displays v := by
  constructor
  · intro tokens i leads
    rw [paths] at leads
    rw [nodes i (tree.alive_of_walk leads)]
    exact displays.named tokens i leads
  · intro tokens nowhere
    exact displays.absent tokens fun i leads => nowhere i ((paths tokens i).mpr leads)

theorem made (displays : fs.Displays v) (tree : Tree fs) (adds : fs.Adds fs' (parent ++ [name]) mode ino)
    (nodes : ∀ i, fs.live i = true → fs'.nodeOf i = fs.nodeOf i) (new : fs'.nodeOf ino = node)
    {directory : v.IsDirectory parent} {free : v.node (parent ++ [name]) = none} :
    fs'.Displays (Files.make node directory free) := by
  constructor
  · intro tokens i leads
    rw [Files.make_node]
    rcases (adds.paths tokens i).mp leads with old | ⟨rfl, rfl⟩
    · have differ : tokens ≠ parent ++ [name] := by
        rintro rfl
        rw [displays.named _ i old] at free
        cases free
      rw [if_neg differ, nodes i (tree.alive_of_walk old)]
      exact displays.named tokens i old
    · rw [if_pos rfl, new]
  · intro tokens nowhere
    rw [Files.make_node, if_neg]
    · exact displays.absent tokens fun i leads => nowhere i ((adds.paths tokens i).mpr (.inl leads))
    · rintro rfl
      exact nowhere ino ((adds.paths _ ino).mpr (.inr ⟨rfl, rfl⟩))

theorem deleted (displays : fs.Displays v) (tree : Tree fs) (deletes : fs.Deletes fs' (parent ++ [name]) ino)
    (nodes : ∀ i, i ≠ ino → fs.live i = true → fs'.nodeOf i = fs.nodeOf i)
    {childless : ∀ entry, v.node (parent ++ [name] ++ [entry]) = none} :
    fs'.Displays (Files.remove childless) := by
  constructor
  · intro tokens i leads
    obtain ⟨old, differ⟩ := (deletes.paths tokens i).mp leads
    have other : i ≠ ino := by
      rintro rfl
      exact differ (tree.forest.path_unique old deletes.named)
    rw [Files.remove_node, if_neg differ, nodes i other (tree.alive_of_walk old)]
    exact displays.named tokens i old
  · intro tokens nowhere
    rw [Files.remove_node]
    split
    · rfl
    · rename_i differ
      exact displays.absent tokens fun i leads => nowhere i ((deletes.paths tokens i).mpr ⟨leads, differ⟩)

theorem rewritten (displays : fs.Displays v) (tree : Tree fs)
    (paths : ∀ tokens i, fs'.Leads tokens i ↔ fs.Leads tokens i) (own : fs.Leads tokens ino)
    (nodes : ∀ i, i ≠ ino → fs.live i = true → fs'.nodeOf i = fs.nodeOf i)
    (new : fs'.nodeOf ino = .file mode changed) {file : v.node tokens = some (.file mode contents)} :
    fs'.Displays (Files.rewrite changed file) := by
  constructor
  · intro other i leads
    rw [paths] at leads
    rw [Files.rewrite_node]
    by_cases same : i = ino
    · subst same
      rw [if_pos (tree.forest.path_unique leads own), new]
    · have differ : other ≠ tokens := by
        rintro rfl
        exact same (tree.forest.end_unique leads own)
      rw [if_neg differ, nodes i same (tree.alive_of_walk leads)]
      exact displays.named other i leads
  · intro other nowhere
    rw [Files.rewrite_node, if_neg]
    · exact displays.absent other fun i leads => nowhere i ((paths other i).mpr leads)
    · rintro rfl
      exact nowhere ino ((paths _ ino).mpr own)

end FsCtx.Displays

end Nodes

section Calls

variable {fs fs' : FsCtx} {v : Visible} {h : Contents} {event : Event} {call : Call} {path : CString} {env : Env}
  {i ino p : Nat} {mode : BitVec 32} {r : Int} {now : Timespec}

theorem FsCtx.Kinds.stored (kinds : fs.Kinds) (stores : fs'.Stores h) (alive : fs.live i = true)
    (alive' : fs'.live i = true) (mode : (fs'.itable i).mode = (fs.itable i).mode) (same : h i = fs.contents i) :
    fs'.nodeOf i = fs.nodeOf i :=
  kinds.nodeOf alive mode fun regular => (stores i alive' (by rwa [mode])).contents.trans same

theorem Truncated.code {size : Nat} (truncated : Truncated fs i size now fs' r) (success : 0 ≤ r) : r = 0 := by
  cases truncated with
  | stuck code => omega
  | same code | filled code | grown code | shrunk code => exact code

theorem Wrote.code {buf : List Byte} {offset : Nat} (wrote : Wrote fs i buf offset now fs' r) (success : 0 ≤ r) :
    r = buf.length := by
  cases wrote with
  | refused code =>
    rw [code] at success
    cases success
  | stored code => exact code
  | empty code none => rw [code, none, List.length_nil, Nat.cast_zero]

theorem FsCtx.Leaks.displays (leaks : fs.Leaks fs' path mode now ino p) (tree : Tree fs) (kinds : fs.Kinds)
    (displays : fs.Displays v) : fs'.Displays v := by
  have result := leaks.result
  subst result
  refine displays.same tree (fun tokens i => Tree.leads_same (tree.takeInode_edge leaks.clear mode now)) ?_
  intro i alive
  have kept : (fs.takeInode ino mode now).itable i = fs.itable i :=
    FsCtx.setInode_other (live_ne_free alive leaks.clear)
  refine kinds.nodeOf alive (by rw [kept]) fun _ => ?_
  rw [FsCtx.contents, kept]
  rfl

theorem FsCtx.Makes.displays (makes : fs.Makes fs' path mode now ino p) (tree : Tree fs) (kinds : fs.Kinds)
    (displays : fs.Displays v)
    (stores : fs'.Stores (Contents.change fs.contents (some ino) fun _ => [])) {node : Node (BitVec 32) Byte}
    (new : fs'.nodeOf ino = node) {parent : List (List Byte)} {name : List Byte}
    (split : strtok path.bytes = parent ++ [name]) {directory : v.IsDirectory parent}
    {free : v.node (parent ++ [name]) = none} : fs'.Displays (Files.make node directory free) := by
  have adds := makes.adds tree
  obtain ⟨-, modes⟩ := makes.inodes tree
  rw [split] at adds
  refine displays.made tree adds (fun i alive => ?_) new
  have differ : i ≠ ino := live_ne_free alive makes.clear
  refine kinds.stored stores alive ?_ (modes i differ) (Contents.change_other (by simpa using Ne.symm differ))
  rw [adds.others i differ, alive]

theorem FsCtx.Deletes.displays {parent : List (List Byte)} {name : List Byte}
    (deletes : fs.Deletes fs' (parent ++ [name]) ino) (tree : Tree fs) (kinds : fs.Kinds) (displays : fs.Displays v)
    (stores : fs'.Stores fs.contents) (modes : ∀ j, (fs'.itable j).mode = (fs.itable j).mode)
    {childless : ∀ entry, v.node (parent ++ [name] ++ [entry]) = none} :
    fs'.Displays (Files.remove childless) := by
  refine displays.deleted tree deletes fun i differ alive => ?_
  exact kinds.stored stores alive (by rw [deletes.others i differ, alive]) (modes i) rfl

/-- A call that succeeds replaces the contents of a file, and one that fails does not. -/
theorem FsCtx.FileStep.displays (changed : fs.FileStep fs' i) (tree : Tree fs) (kinds : fs.Kinds)
    (displays : fs.Displays v) (found : fs.resolve path = some i) (regular : sIsreg (fs.itable i).mode = true)
    {f : List Byte → List Byte}
    (stores : fs'.Stores (if 0 ≤ r then Contents.change fs.contents (fs.resolve path) f else fs.contents)) :
    if 0 ≤ r then ∀ mode contents (file : v.node (strtok path.bytes) = some (.file mode contents)),
      fs'.Displays (Files.rewrite (f contents) file) else fs'.Displays v := by
  have leads : fs.Leads (strtok path.bytes) i := tree.walk_of_resolve found
  have paths (tokens : List (List Byte)) (j : Nat) : fs'.Leads tokens j ↔ fs.Leads tokens j :=
    Tree.leads_same (changed.edge tree regular)
  rw [found] at stores
  have nodes (j : Nat) (other : j ≠ i) (alive : fs.live j = true) : fs'.nodeOf j = fs.nodeOf j := by
    refine kinds.stored stores alive (by rw [changed.live, alive]) (changed.modes j) ?_
    split
    · exact Contents.change_other (by simpa using Ne.symm other)
    · rfl
  have own : fs'.contents i = if 0 ≤ r then f (fs.contents i) else fs.contents i := by
    have alive : fs'.live i = true := by rw [changed.live, tree.alive_of_walk leads]
    rw [(stores i alive (by rwa [changed.mode])).contents]
    split
    · exact Contents.change_self
    · rfl
  split
  · rename_i success
    intro mode contents file
    have here := displays.named _ i leads
    rw [file, nodeOf_file regular, Option.some.injEq, Node.file.injEq] at here
    obtain ⟨rfl, rfl⟩ := here
    rw [if_pos success] at own
    refine displays.rewritten tree paths leads nodes ?_
    rw [nodeOf_file (by rwa [changed.mode]), changed.mode, own]
  · rename_i failed
    rw [if_neg failed] at own
    refine displays.same tree paths fun j alive => ?_
    by_cases same : j = i
    · rw [same, nodeOf_file regular, nodeOf_file (by rwa [changed.mode]), changed.mode, own]
    · exact nodes j same alive

theorem mkdir_mode (kind : mode &&& sIfmt = 0#32 ∨ mode &&& sIfmt = sIfdir) : sIsdir (mode ||| sIfdir) = true := by
  rw [sIsdir, beq_iff_eq, BitVec.and_or_distrib_right]
  rcases kind with none | dir
  · rw [none]
    decide
  · rw [dir]
    decide

/-- A new entry, made by `create` or `mkdir`. -/
theorem Tree.displays_made (tree : Tree fs) (steady : Steady fs) (kinds : fs.Kinds) (displays : fs.Displays v)
    (sound : Sound fs ⟨call, env, 0⟩) (new : call.newMode = some mode)
    (makes : fs.Makes fs' call.path mode env.now ino p) (step : a1fs.Step fs ⟨call, env, 0⟩ fs')
    (stores : fs'.Stores (Contents.after fs.contents fs ⟨call, env, 0⟩ fs')) :
    ∃ v', Visible.Step v (Event.exchange ⟨call, env, 0⟩) v' ∧ fs'.Displays v' := by
  have adds := makes.adds tree
  rw [Contents.after_new new, adds.allocated] at stores
  have split := makes.split
  obtain ⟨self, -⟩ := makes.inodes tree
  have mode' : (fs'.itable ino).mode = mode := adds.mode
  have place (creatable : Creatable fs call.path) : v.IsDirectory (strtok call.path.bytes).dropLast ∧
      v.node ((strtok call.path.bytes).dropLast ++ [strrchr call.path.bytes]) = none := by
    obtain ⟨d, parent⟩ := Option.isSome_iff_exists.mp creatable.2.2.1
    obtain ⟨leads, dir⟩ := (tree.parent_iff steady creatable.1).mp parent
    refine ⟨displays.isDirectory leads dir, ?_⟩
    rw [← split]
    exact displays.absent _ fun i => tree.not_leads creatable
  obtain ⟨fuel, returned⟩ := step
  rcases Call.newMode_cases new with ⟨path, rfl⟩ | ⟨path, bits, rfl⟩
  · have regular : sIsreg mode = true := (a1fsCreate_ok.mp returned).1
    obtain ⟨directory, free⟩ := place sound.documented
    have empty : fs'.contents ino = [] := by
      rw [(stores ino adds.alive (by rwa [mode'])).contents, Contents.change_self]
    refine ⟨_, .created split directory free, makes.displays tree kinds displays stores ?_ split⟩
    rw [nodeOf_file (by rwa [mode']), mode', empty]
  · obtain ⟨creatable, kind⟩ := sound.documented
    obtain ⟨directory, free⟩ := place creatable
    cases new
    refine ⟨_, .madeDirectory split directory free, makes.displays tree kinds displays stores ?_ split⟩
    rw [nodeOf_directory (by rw [mode', mkdir_mode kind]), mode']

/-- What a call returns and leaves behind is what the specification allows. -/
theorem Tree.displays_call (tree : Tree fs) (steady : Steady fs) (kinds : fs.Kinds) (stores : fs.Stores fs.contents)
    (displays : fs.Displays v) (keeps : KeepsPaths fs event) (kept : KeepsContents fs event)
    (step : a1fs.Step fs event fs') : ∃ v', Visible.Step v event.exchange v' ∧ fs'.Displays v' := by
  have stores' := tree.stores steady stores kept step
  have sound := keeps.sound
  -- a failure that is reported as success has `errno` 0
  have untouched {env : Env} (code : ¬ -(env.errno : Int) < 0) : env.errno = 0 := by omega
  have notRmdir {call : Call} {r : Int} (other : ∀ path, call ≠ .rmdir path) :
      ∀ path, call = .rmdir path → r = -eNotEmpty ∧ ∃ name, v.node (call.tokens ++ [name]) ≠ none :=
    fun path same => absurd same (other path)
  cases tree.effect steady sound step with
  | @refused call env mode new same =>
    have negative : -eNoSpc < 0 := by decide
    refine ⟨v, .failed negative (notRmdir ?_), same ▸ displays⟩
    rintro path rfl
    cases new
  | @leaks call env mode ino p new creatable leaks =>
    refine ⟨v, .failed ?_ (notRmdir ?_), leaks.displays tree kinds displays⟩
    · by_contra success
      exact absurd (keeps.room (untouched success)) (leaks.noRoom new)
    · rintro path rfl
      cases new
  | makes new creatable makes => exact tree.displays_made steady kinds displays sound new makes step stores'
  | @unlinks path env i p addr found walk edge removed =>
    have leads : fs.Leads (strtok path.bytes) i := tree.walk_of_resolve found
    have split := tree.leads_split sound.documented.1 leads edge
    have deletes := removed.deletes tree.flipBlocks walk split
    obtain ⟨j, found', regular⟩ := sound.documented.2
    obtain rfl := own_of_resolve found j found'
    have file := displays.named _ j leads
    rw [nodeOf_file regular, split] at file
    rw [split] at deletes
    have gone : fs.Deletes fs' ((strtok path.bytes).dropLast ++ [strrchr path.bytes]) j :=
      ⟨deletes.named, deletes.dead, deletes.others, deletes.paths⟩
    exact ⟨_, .unlinked split file, gone.displays tree kinds displays stores' removed.modes⟩
  | @stops path env i k found stops result =>
    refine ⟨v, .failed ?_ (notRmdir (by simp)), ?_⟩
    · by_contra success
      have passes := (keeps.passes (untouched success)).holds (getInodeNum_of_resolve found)
      exact absurd stops.1 (passes _ stops.1.1)
    · subst result
      exact displays.same tree (fun _ _ => Iff.rfl) fun _ _ => rfl
  | @notEmpty path env same =>
    obtain ⟨fuel, returned⟩ := step
    obtain ⟨i, p, found, walk, edge, dir, ⟨-, some, -⟩ | ⟨code, -⟩⟩ :=
      tree.rmdir sound.documented sound.keepsRoot returned
    · have leads : fs.Leads (strtok path.bytes) i := tree.walk_of_resolve found
      rw [tree.counted i dir] at some
      obtain ⟨a, member, used⟩ := List.countP_pos_iff.mp some
      obtain ⟨name, j, -, -, entry⟩ := tree.edge_of_used dir member used
      have below := (tree.leads_child leads).mpr entry
      have negative : -eNotEmpty < 0 := by decide
      refine ⟨v, .failed negative ?_, same ▸ displays⟩
      exact fun _ _ => ⟨rfl, name, displays.named_iff.mpr ⟨j, below⟩⟩
    · cases code
  | @removes path env i p addr found walk edge removed =>
    have leads : fs.Leads (strtok path.bytes) i := tree.walk_of_resolve found
    have split := tree.leads_split sound.documented.1 leads edge
    have deletes := removed.deletes tree walk split
    obtain ⟨j, found', dir⟩ := sound.documented.2
    obtain rfl := own_of_resolve found j found'
    have directory := displays.isDirectory leads dir
    have childless (entry : List Byte) : v.node (strtok path.bytes ++ [entry]) = none := by
      apply displays.absent
      intro k below
      exact removed.childless entry k ((tree.leads_child leads).mp below)
    rw [split] at deletes directory childless
    exact ⟨_, .removedDirectory split directory childless,
      deletes.displays tree kinds displays stores' removed.modes⟩
  | @truncates path env i size r found regular alive small truncated changed =>
    have file := displays.named _ i (tree.walk_of_resolve found)
    rw [nodeOf_file regular] at file
    have after := changed.displays tree kinds displays found regular stores'
    split at after
    · rename_i success
      obtain rfl := truncated.code success
      exact ⟨_, .truncated file, after _ _ file⟩
    · rename_i failed
      exact ⟨v, .failed (by simpa using failed) (notRmdir (by simp)), after⟩
  | @writes path buf offset env i r found regular alive wrote changed =>
    have file := displays.named _ i (tree.walk_of_resolve found)
    rw [nodeOf_file regular] at file
    have after := changed.displays tree kinds displays found regular stores'
    split at after
    · rename_i success
      obtain rfl := wrote.code success
      exact ⟨_, .written file, after _ _ file⟩
    · rename_i failed
      exact ⟨v, .failed (by simpa using failed) (notRmdir (by simp)), after⟩

end Calls

section Lookups

variable {fs : FsCtx} {v : Visible} {path : CString} {env : Env} {inode : A1fsInode} {i k n offset : Nat}
  {buf : Buffer} {r : Int} {c : List Byte}

theorem readExtents_placed (finds : Finds inode offset k) (measured : inode.Measured) (some : 0 < n)
    (aligned : offset % 4096 + n ≤ 4096) (room : offset + n ≤ inode.size)
    (inside : offset = 0 ∨ lands inode.fields offset = true)
    (loop : readExtents fs inode n (12 - k) (fun _ => none) k offset n 0 = .ok buf) :
    ∃ a, Placed inode offset n a ∧ buf = Buffer.filled fs.data a n := by
  obtain ⟨slot, place⟩ := finds.place measured (by omega) inside
  have near (m : Nat) (slot : m ∈ inode.usedSlots) : 0 < (inode.iExtent m).count ∧
      (inode.iExtent m).start * 4096 % 2 ^ 32 = 4096 * (inode.iExtent m).start := by
    have more := measured.counted m slot
    have near := measured.near (inode.iExtent m).start
      (A1fsInode.mem_blocks.mpr ⟨m, slot, A1fsExtent.mem_blocks.mpr ⟨le_refl _, by omega⟩⟩)
    omega
  have start : offset = 0 → k = 0 := by
    intro zero
    cases finds with
    | start => rfl
    | slot more => omega
  have passed : ∀ m < k, (inode.iExtent m).size = 0 := by
    cases finds with
    | start => exact fun m below => by omega
    | slot some inside reaches passed => exact passed
  have below := finds.inside
  obtain ⟨slots, left⟩ : ∃ slots, 12 - k = slots + 1 := ⟨11 - k, by omega⟩
  rw [left] at loop
  obtain ⟨-, address⟩ := near k slot
  rcases place with before | ⟨full, next⟩
  · obtain ⟨-, -, same⟩ := (readExtents_within some below (by omega)).mp loop
    rw [address] at same
    exact ⟨_, .within slot start passed (by omega), same⟩
  · obtain ⟨-, -, -, loop⟩ := (readExtents_turn (by omega) below (by omega)).mp loop
    have rest : (4096 * ((inode.iExtent k).count : Int)) - offset = 0 := by omega
    rw [rest, Int.sub_zero] at loop
    obtain ⟨more, address'⟩ := near (k + 1) next
    cases slots with
    | zero =>
      rw [readExtents, if_pos (by omega)] at loop
      cases loop
    | succ slots =>
      have below' : k + 1 < 12 := by omega
      obtain ⟨-, -, same⟩ := (readExtents_first some below' (by omega)).mp loop
      rw [address'] at same
      refine ⟨_, .next next passed full, ?_⟩
      rw [same]
      funext x
      rw [Buffer.filled]
      split
      · rfl
      · rfl

/-- A file that holds a byte array is read from there. -/
theorem a1fsRead_holds (holds : fs.Holds i c) (measured : (fs.itable i).Measured)
    (walk : getInodeNum fs path 0 = .ok (i : Int)) (inside : (i : Int) < fs.sb.sbInodesCount)
    (aligned : offset % 4096 + n ≤ 4096) (front : (fs.itable i).ReadsFront n offset)
    (h : a1fsRead env fs path n offset = .ok (r, buf)) :
    r = ((c.drop offset).take n).length ∧ buf = fun x => ((c.drop offset).take n)[x]? := by
  have length := holds.length
  have fits := holds.spells.fits
  rcases (a1fsRead_ok walk inside measured.fits (by omega)).mp h with ⟨after, rfl, rfl⟩ |
    ⟨reached, rfl, k, finds, loop⟩
  · have none : (c.drop offset).take n = [] := by
      rw [List.drop_eq_nil_of_le (by omega), List.take_nil]
    rw [none]
    exact ⟨rfl, rfl⟩
  · obtain ⟨room, place⟩ := front.resolve_left (by omega)
    have count : ((c.drop offset).take n).length = n := by
      rw [List.length_take, List.length_drop]
      omega
    refine ⟨by rw [count], ?_⟩
    by_cases none : n = 0
    · subst none
      rw [Nat.cast_zero, readExtents_nothing] at loop
      cases loop
      rfl
    · have inside : offset = 0 ∨ lands (fs.itable i).fields offset = true :=
        (place.resolve_left none).imp_right And.left
      have front : offset = 0 ∨ ((fs.itable i).iExtent 0).size ≠ 0 :=
        (place.resolve_left none).imp_right And.right
      obtain ⟨a, placed, rfl⟩ := readExtents_placed finds measured (by omega) aligned room inside loop
      rw [← count] at placed
      have address := placed.address measured front (by
        intro empty
        rw [empty] at count
        exact none count.symm) (by omega)
      funext x
      rw [Buffer.filled]
      split
      · rename_i before
        have byte := holds.spells.bytes (offset + x) (by omega)
        have quotient : (offset + x) / 4096 = offset / 4096 := by omega
        have same : 4096 * (fs.itable i).blocks.getD (offset / 4096) 0 + (offset + x) % 4096 = a + x := by omega
        rw [spread, quotient, same, List.getD_eq_getElem _ _ (by omega)] at byte
        rw [byte, List.getElem?_take_of_lt before, List.getElem?_drop, List.getElem?_eq_getElem (by omega)]
      · rw [List.getElem?_eq_none (by omega)]

end Lookups

section Runs

variable {fs fs' : FsCtx} {v : Visible} {x : Exchange} {exchanges exchanges' : List Exchange} {event : Event}
  {path : CString} {env : Env} {i j : Nat} {t : Timespec}

theorem Regular.calls (regular : Regular fs x) (made : event ∈ x.event) :
    KeepsPaths fs event ∧ KeepsContents fs event ∧ KeepsBlank fs event := by
  obtain ⟨request, env, reply⟩ := x
  cases request with
  | change call => exact regular event made
  | statfs | getattr | readdir | read | utimens => cases made

theorem Regular.tended (regular : Regular fs x) : Tended fs x := fun _ made => (regular.calls made).1.sound

theorem nodeOf_setTime : (fs.setInode i { fs.itable i with iMtime := t }).nodeOf j = fs.nodeOf j := by
  have same : (fs.setInode i { fs.itable i with iMtime := t }).timeless.nodeOf j = fs.timeless.nodeOf j := by
    rw [timeless_setInode]
  exact same

theorem stores_timeless : fs.timeless.Stores fs.timeless.contents ↔ fs.Stores fs.contents := by
  constructor
  · intro stores i alive regular
    obtain ⟨length, spells⟩ := stores i alive regular
    exact ⟨length, spells⟩
  · intro stores i alive regular
    obtain ⟨length, spells⟩ := stores i alive regular
    exact ⟨length, spells⟩

theorem FsCtx.Kinds.step (kinds : fs.Kinds) (steady : Steady fs) (documented : Documented fs event.call)
    (step : a1fs.Step fs event fs') : fs'.Kinds := by
  obtain ⟨fuel, returned⟩ := step
  rcases (Call.exec_effect steady.shaped.range returned).modes with keeps | ⟨mode, ino, new, makes⟩
  · intro i alive
    rw [keeps.modes]
    exact kinds i (keeps.live i alive)
  · intro i alive
    by_cases own : i = ino
    · rw [own, makes.mode]
      obtain ⟨call, env, r⟩ := event
      rcases Call.newMode_cases new with ⟨path, rfl⟩ | ⟨path, bits, rfl⟩
      · exact .inr (a1fsCreate_ok.mp returned).1
      · cases new
        exact .inl (mkdir_mode documented.2)
    · rw [makes.modes i own]
      exact kinds i (by rwa [← makes.live i own])

/-- What holds in all runs of such requests. -/
structure FsCtx.Kept (fs : FsCtx) : Prop where
  blank : fs.AllBlank
  kinds : fs.Kinds
  stores : fs.Stores fs.contents

theorem rootInode_directory : sIsdir (rootInode t).mode = true := by
  change sIsdir (sIfdir ||| 0o777#32) = true
  decide

theorem kept_of_driver (run : driver.Reaches Regular fs) : fs.Kept := by
  refine invariant_of_tended run (fun s x regular => regular.tended) ?_ ?_ ?_
  · intro s start
    obtain ⟨blocks, nInodes, d, now, g, rfl⟩ := Initial.shape start
    refine ⟨fun i _ a member => ?_, fun i alive => .inl ?_, fun i alive regular => ?_⟩
    · rw [A1fsInode.entries, formatted_blocks] at member
      cases member
    · rw [formatted_root alive]
      exact rootInode_directory
    · rw [formatted_directory alive] at regular
      cases regular
  · rintro s i t ⟨blank, kinds, stores⟩
    have kinds' : (s.setInode i { s.itable i with iMtime := t }).timeless.Kinds := by
      rw [timeless_setInode]
      exact kinds
    refine ⟨blank.setTime, kinds', ?_⟩
    rw [← stores_timeless, timeless_setInode, stores_timeless]
    exact stores
  · rintro s x event s' steady tree ⟨blank, kinds, stores⟩ regular made step effect
    obtain ⟨paths, contents, names⟩ := regular.calls made
    have stores' := tree.stores steady stores contents step
    refine ⟨blank.step tree steady names step, kinds.step steady paths.sound.documented step, ?_⟩
    intro i alive regular
    have holds := stores' i alive regular
    rwa [← holds.contents] at holds

theorem formatted_displays {blocks nInodes d : Nat} (g : Geometry blocks nInodes d) :
    (formatted blocks nInodes d t).Displays (Files.empty (sIfdir ||| 0o777#32)) := by
  have nothing (token : List Byte) (rest : List (List Byte)) (j : Nat) :
      ¬ (formatted blocks nInodes d t).Leads (token :: rest) j := by
    intro leads
    obtain ⟨k, edge, -⟩ := Walk.cons_iff.mp leads
    exact no_edge (formatted_blocks blocks nInodes d t 0) edge
  constructor
  · intro tokens i leads
    cases tokens with
    | nil =>
      obtain rfl := Walk.nil_iff.mp leads
      rw [FsCtx.nodeOf, formatted_root g.tree.root.1, if_pos rootInode_directory]
      rfl
    | cons token rest => exact absurd leads (nothing token rest i)
  · intro tokens nowhere
    cases tokens with
    | nil => exact absurd .nil (nowhere 0)
    | cons token rest => rfl

/-- Attributes are those of the node that a path names. -/
theorem FsCtx.Kept.describes (kept : fs.Kept) (alive : fs.live i = true) {st : Stat}
    (mode : st.stMode = (fs.itable i).mode) (size : st.stSize = (fs.itable i).size) :
    st.Describes (fs.nodeOf i) := by
  rcases kept.kinds i alive with dir | regular
  · rw [nodeOf_directory dir]
    exact mode
  · rw [nodeOf_file regular]
    exact ⟨mode, size.trans (kept.stores i alive regular).length.symm⟩

/-- Every answer is one that the specification allows, and so is what it leaves behind. -/
theorem Tree.displays_serve (tree : Tree fs) (steady : Steady fs) (kept : fs.Kept) (displays : fs.Displays v)
    (regular : Regular fs x) (step : driver.Step fs x fs') : ∃ v', Visible.Step v x v' ∧ fs'.Displays v' := by
  obtain ⟨fuel, served⟩ := step
  obtain ⟨request, env, reply⟩ := x
  cases request with
  | statfs path =>
    cases served
    exact ⟨v, .statfs, displays⟩
  | getattr path =>
    obtain ⟨shaped, parent⟩ := regular
    obtain ⟨d, parent⟩ := Option.isSome_iff_exists.mp parent
    obtain ⟨below, dir⟩ := (tree.parent_iff steady shaped).mp parent
    have answer := tree.getattr_leads steady (.inl fun token member => (shaped.proper member).2.2) shaped.1
      shaped.2.2.1 below dir
    obtain ⟨reply, answered, served⟩ := bind_eq_ok.mp served
    rcases answer with ⟨j, st, leads, answer, mode, size⟩ | ⟨nowhere, answer⟩
    · rw [answer] at answered
      cases answered
      cases served
      exact ⟨v, .found (displays.named _ j leads) (kept.describes (tree.alive_of_walk leads) mode size), displays⟩
    · rw [answer] at answered
      cases answered
      cases served
      exact ⟨v, .absent (displays.absent _ nowhere), displays⟩
  | readdir path =>
    obtain ⟨shaped, d, found, dir⟩ := regular
    have leads : fs.Leads (strtok path.bytes) d := tree.walk_of_resolve found
    have listed := tree.listed d dir
    have readable := tree.readable steady d
    have answer : a1fsReaddir env fs path = .ok (0, fs.names d ++ [[46#8], [46#8, 46#8]]) :=
      a1fsReaddir_names listed readable (kept.blank d dir) (live_iff.mp (tree.alive_of_walk leads)).1 shaped.1
        (getInodeNum_of_resolve found)
    obtain ⟨reply, answered, served⟩ := bind_eq_ok.mp served
    rw [answer] at answered
    cases answered
    cases served
    refine ⟨v, .listed (displays.isDirectory leads dir) ⟨listed.names_nodup readable (tree.nodup d), ?_⟩, displays⟩
    intro name
    rw [listed.mem_names readable, displays.named_iff]
    refine exists_congr fun j => ?_
    rw [tree.leads_child leads]
    exact (and_iff_right dir).symm
  | read path size offset =>
    obtain ⟨⟨shaped, i, found, file⟩, aligned, front⟩ := regular
    have leads : fs.Leads (strtok path.bytes) i := tree.walk_of_resolve found
    have alive := tree.alive_of_walk leads
    have named := displays.named _ i leads
    rw [nodeOf_file file] at named
    obtain ⟨⟨r, buf⟩, answered, served⟩ := bind_eq_ok.mp served
    cases served
    obtain ⟨rfl, rfl⟩ := a1fsRead_holds (kept.stores i alive file) (tree.files i file)
      (getInodeNum_of_resolve found) (live_iff.mp alive).1 aligned (front i found) answered
    exact ⟨v, .read named rfl, displays⟩
  | utimens path times =>
    obtain ⟨shaped, parent, told⟩ := regular
    obtain ⟨d, parent⟩ := Option.isSome_iff_exists.mp parent
    obtain ⟨below, dir⟩ := (tree.parent_iff steady shaped).mp parent
    obtain ⟨-, r, number, outcome⟩ :=
      tree.getInodeNum_leads steady (.inl fun token member => (shaped.proper member).2.2) below dir
    obtain ⟨⟨fs1, code⟩, set, served⟩ := bind_eq_ok.mp served
    cases served
    rw [a1fsUtimens, number, ok_bind] at set
    rcases outcome with ⟨j, leads, rfl⟩ | ⟨nowhere, negative⟩
    · rw [if_neg (by omega), bind_eq_ok] at set
      obtain ⟨inode, read, set⟩ := set
      obtain ⟨-, rfl⟩ := inodeAt_ok.mp read
      cases set
      refine ⟨v, .stamped (displays.named_iff.mpr ⟨j, leads⟩), ?_⟩
      exact displays.same tree (fun _ _ => leads_setTime) fun _ _ => nodeOf_setTime
    · rw [if_pos negative] at set
      dsimp only at set
      cases set
      refine ⟨v, .unstamped (displays.absent _ nowhere) ?_, displays⟩
      by_contra success
      obtain ⟨j, found⟩ := Option.isSome_iff_exists.mp (told (by dsimp only; omega))
      exact nowhere j (tree.walk_of_resolve found)
  | change call =>
    obtain ⟨⟨fs1, r⟩, returned, served⟩ := bind_eq_ok.mp served
    cases served
    have made : (⟨call, env, r⟩ : Event) ∈ Exchange.event ⟨.change call, env, .status r⟩ := rfl
    obtain ⟨keeps, contents, -⟩ := regular.calls made
    exact tree.displays_call steady kept.kinds kept.stores displays keeps contents ⟨fuel, returned⟩

theorem Initial.displays (start : Initial fs) : ∃ v, specification.Initial v ∧ fs.Displays v := by
  obtain ⟨blocks, nInodes, d, now, g, rfl⟩ := Initial.shape start
  exact ⟨_, rfl, formatted_displays g⟩

theorem follows_specification (reached : driver.Reaches Regular fs) (displays : fs.Displays v)
    (regular : Regular fs x) (step : driver.Step fs x fs') : ∃ v', specification.Step v x v' ∧ fs'.Displays v' := by
  obtain ⟨steady, tree⟩ := tree_of_driver reached fun _ _ regular => regular.tended
  exact tree.displays_serve steady (kept_of_driver reached) displays regular step

/-- The driver does what a tree of directories and byte arrays does: whatever it is asked in a run of such
    requests, all of its answers are those of the specification. -/
theorem requests_refine_files (run : driver.Trace Regular exchanges fs) :
    ∃ v, specification.Trace (fun _ _ => True) exchanges v ∧ fs.Displays v :=
  run.refine FsCtx.Displays (fun _ => Initial.displays) fun _ _ _ _ => follows_specification

instance (inode : A1fsInode) (size offset : Nat) : Decidable (inode.ReadsFront size offset) :=
  inferInstanceAs (Decidable (_ ∨ _ ∧ (_ ∨ _ ∨ _ ∧ _)))

instance (fs : FsCtx) : (x : Exchange) → Decidable (Regular fs x)
  | ⟨.statfs _, _, _⟩ => .isTrue trivial
  | ⟨.getattr path, _, _⟩ => inferInstanceAs (Decidable (WellShaped path ∧ (fs.parent path).isSome))
  | ⟨.readdir path, _, _⟩ => inferInstanceAs (Decidable (IsDirectory fs path))
  | ⟨.read path size offset, _, _⟩ => inferInstanceAs (Decidable (IsFile fs path ∧ offset % 4096 + size ≤ 4096 ∧
      ∀ i ∈ fs.resolve path, (fs.itable i).ReadsFront size offset))
  | ⟨.utimens path _, env, _⟩ => inferInstanceAs (Decidable (WellShaped path ∧ (fs.parent path).isSome ∧
      (env.errno = 0 → (fs.resolve path).isSome)))
  | ⟨.change call, env, reply⟩ => inferInstanceAs (Decidable (∀ event ∈ Exchange.event ⟨.change call, env, reply⟩,
      KeepsPaths fs event ∧ KeepsContents fs event ∧ KeepsBlank fs event))

/-- A file in a directory is written and read, and the directory is listed. -/
def visibleRun : Option (FsCtx × List Exchange) :=
  exchangeAll Regular 10 device [(quiet, .change (.mkdir pathB 0)), (quiet, .change (.create pathBC regularMode)),
    (quiet, .change (.write pathBC [122#8, 123#8] 20)), (quiet, .read pathBC 2 20), (quiet, .getattr pathBC),
    (quiet, .getattr pathA), (quiet, .readdir pathB), (quiet, .utimens pathB (⟨1, 0⟩, ⟨2, 0⟩)),
    (quiet, .change (.rmdir pathB)), (quiet, .change (.unlink pathBC))]

theorem requests_refine_files_run : ∃ fs exchanges v, visibleRun = some (fs, exchanges) ∧ exchanges.length = 10 ∧
    specification.Trace (fun _ _ => True) exchanges v ∧ fs.Displays v := by
  have returns : ∃ out ∈ visibleRun, out.2.length = 10 := by decide +kernel
  obtain ⟨⟨fs, exchanges⟩, returned, length⟩ := returns
  have run : driver.Trace Regular ([] ++ exchanges) fs := exchangeAll_trace (.initial device_initial) returned
  obtain ⟨v, allowed, displays⟩ := requests_refine_files run
  exact ⟨fs, exchanges, v, returned, length, allowed, displays⟩

/-- Devices on which the same calls have had the same results show the same files, whatever their sizes, the
    clocks, the lookups between the calls and the blocks that the files have got. -/
theorem same_outcomes_same_files (run : driver.Trace Regular exchanges fs)
    (run' : driver.Trace Regular exchanges' fs') (same : outcomes exchanges = outcomes exchanges') :
    ∃ v, fs.Displays v ∧ fs'.Displays v := by
  obtain ⟨v, allowed, displays⟩ :=
    run.refine FsCtx.Displays (fun _ => Initial.displays) fun _ _ _ _ => follows_specification
  obtain ⟨v', allowed', displays'⟩ :=
    run'.refine FsCtx.Displays (fun _ => Initial.displays) fun _ _ _ _ => follows_specification
  have nodes : v.node = v'.node := by rw [nodes_of_trace allowed, nodes_of_trace allowed', same]
  refine ⟨v, displays, ?_, ?_⟩
  · rw [nodes]
    exact displays'.named
  · rw [nodes]
    exact displays'.absent

def otherDevice : FsCtx := formatted 24 12 1 ⟨5, 0⟩

theorem otherDevice_initial : Initial otherDevice := by
  have g : Geometry 24 12 1 :=
    ⟨by decide, by decide, by decide, by decide, by decide, by decide⟩
  exact ⟨_, formatted_initial g (by decide) (by decide) (by decide +kernel)⟩

/-- Without the lookups, on another device and at another time. -/
def otherRun : Option (FsCtx × List Exchange) :=
  exchangeAll Regular 10 otherDevice [(⟨⟨9, 0⟩, 0⟩, .change (.mkdir pathB 0)),
    (⟨⟨9, 0⟩, 0⟩, .change (.create pathBC regularMode)), (quiet, .change (.write pathBC [122#8, 123#8] 20)),
    (quiet, .change (.rmdir pathB)), (quiet, .change (.unlink pathBC))]

theorem same_outcomes_same_files_run : ∃ fs exchanges fs' exchanges' v, visibleRun = some (fs, exchanges) ∧
    otherRun = some (fs', exchanges') ∧ fs.Displays v ∧ fs'.Displays v := by
  have returns : ∃ out ∈ visibleRun, ∃ out' ∈ otherRun, outcomes out.2 = outcomes out'.2 := by decide +kernel
  obtain ⟨⟨fs, exchanges⟩, returned, ⟨fs', exchanges'⟩, returned', same⟩ := returns
  have run : driver.Trace Regular ([] ++ exchanges) fs := exchangeAll_trace (.initial device_initial) returned
  have run' : driver.Trace Regular ([] ++ exchanges') fs' :=
    exchangeAll_trace (.initial otherDevice_initial) returned'
  obtain ⟨v, displays, displays'⟩ := same_outcomes_same_files run run' same
  exact ⟨fs, exchanges, fs', exchanges', v, returned, returned', displays, displays'⟩

end Runs

end ExtentFs
