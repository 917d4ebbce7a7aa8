import ExtentFs.Guarantees.Listings
import ExtentFs.Invariants.Orderly

namespace ExtentFs

open Base Base.Bytes

/-- Two states differ at most in the times of modification. -/
structure FsCtx.SameButTimes (fs fs' : FsCtx) : Prop where
  size : fs'.size = fs.size
  sb : fs'.sb = fs.sb
  inodeBits : fs'.inodeBits = fs.inodeBits
  blockBits : fs'.blockBits = fs.blockBits
  data : fs'.data = fs.data
  itable : ∀ k, fs'.itable k = { fs.itable k with iMtime := (fs'.itable k).iMtime }

section Swap

variable {fs : FsCtx} {i j d e a b : Nat}

theorem cleared_comm {m : Bytes} (apart : a + 256 ≤ b ∨ b + 256 ≤ a) :
    (((m.set32 a (-1#32)).set8 (a + 4) 0#8).set32 b (-1#32)).set8 (b + 4) 0#8 =
      (((m.set32 b (-1#32)).set8 (b + 4) 0#8).set32 a (-1#32)).set8 (a + 4) 0#8 := by
  have word : (bytes32 (-1#32)).length = 4 := rfl
  have byte : [0#8].length = 1 := rfl
  unfold set32 set8
  calc (((m.store a (bytes32 (-1#32))).store (a + 4) [0#8]).store b (bytes32 (-1#32))).store (b + 4) [0#8]
      = (((m.store a (bytes32 (-1#32))).store b (bytes32 (-1#32))).store (a + 4) [0#8]).store (b + 4) [0#8] := by
        rw [store_comm (a := a + 4) (b := b) (by omega)]
    _ = (((m.store b (bytes32 (-1#32))).store a (bytes32 (-1#32))).store (a + 4) [0#8]).store (b + 4) [0#8] := by
        rw [store_comm (a := a) (b := b) (by omega)]
    _ = (((m.store b (bytes32 (-1#32))).store a (bytes32 (-1#32))).store (b + 4) [0#8]).store (a + 4) [0#8] :=
        store_comm (by omega)
    _ = (((m.store b (bytes32 (-1#32))).store (b + 4) [0#8]).store a (bytes32 (-1#32))).store (a + 4) [0#8] := by
        rw [store_comm (a := a) (b := b + 4) (by omega)]

/-- The order in which two files are removed shows in the times only. -/
theorem unlinked_comm {now1 now2 now3 now4 : Timespec} (files : i ≠ j) (di : d ≠ i) (dj : d ≠ j) (ei : e ≠ i)
    (ej : e ≠ j) (apart : a + 256 ≤ b ∨ b + 256 ≤ a) :
    ((fs.unlinked i d a now1).unlinked j e b now2).SameButTimes
      ((fs.unlinked j e b now3).unlinked i d a now4) := by
  have blocks : ((fs.unlinked i d a now1).itable j).blocks = (fs.itable j).blocks := by
    rw [FsCtx.unlinked_other dj.symm files.symm]
  have blocks' : ((fs.unlinked j e b now3).itable i).blocks = (fs.itable i).blocks := by
    rw [FsCtx.unlinked_other ei.symm files]
  refine ⟨rfl, ?_, ?_, ?_, ?_, fun k => ?_⟩
  · rw [FsCtx.unlinked_sb, FsCtx.unlinked_sb, FsCtx.unlinked_sb, FsCtx.unlinked_sb, blocks, blocks']
    simp only [A1fsSuperblock.mk.injEq, true_and, and_true]
    omega
  · simp only [FsCtx.unlinked_inodeBits]
    exact Bitmap.flip_comm
  · simp only [FsCtx.unlinked_blockBits, blocks, blocks']
    exact Bitmap.flipAll_comm
  · simp only [FsCtx.unlinked_data]
    exact cleared_comm apart.symm
  · by_cases removed : k = i
    · subst removed
      rw [FsCtx.unlinked_file di, FsCtx.unlinked_other ei.symm files, FsCtx.unlinked_other ei.symm files,
        FsCtx.unlinked_file di]
      rfl
    · by_cases removed' : k = j
      · subst removed'
        rw [FsCtx.unlinked_file ej, FsCtx.unlinked_other dj.symm files.symm,
          FsCtx.unlinked_other dj.symm files.symm, FsCtx.unlinked_file ej]
        rfl
      · by_cases parent : k = d
        · subst parent
          rw [FsCtx.unlinked_parent di]
          by_cases parent' : k = e
          · subst parent'
            rw [FsCtx.unlinked_parent ej, FsCtx.unlinked_parent ej, FsCtx.unlinked_parent di]
          · rw [FsCtx.unlinked_other parent' removed', FsCtx.unlinked_other parent' removed',
              FsCtx.unlinked_parent di]
        · rw [FsCtx.unlinked_other parent removed]
          by_cases parent' : k = e
          · subst parent'
            rw [FsCtx.unlinked_parent ej, FsCtx.unlinked_parent ej, FsCtx.unlinked_other parent removed]
          · rw [FsCtx.unlinked_other parent' removed', FsCtx.unlinked_other parent' removed',
              FsCtx.unlinked_other parent removed]

end Swap

section Tree

variable {fs : FsCtx} {path : CString} {d i : Nat}

theorem Tree.walk_passes (tree : Tree fs) {tokens : List (List Byte)} (alive : fs.live d = true)
    (noNul : ∀ token ∈ tokens, 0#8 ∉ token) (found : walkTo fs d tokens = some i) :
    Walk fs.Passes d tokens i ∧ fs.live i = true := by
  induction tokens generalizing d with
  | nil =>
    cases found
    exact ⟨.nil, alive⟩
  | cons token tokens ih =>
    rw [walkTo] at found
    split at found
    · rename_i dir
      split at found
      · rename_i r look
        split at found
        · rename_i range
          obtain ⟨-, same⟩ := inodeLookup_ok look
          obtain ⟨j, number, entry⟩ := (tree.listed d dir).entry_of_entryNamed (noNul token (by simp)) (by omega)
          obtain rfl : r = j := by omega
          have target := (tree.linked d token j ⟨dir, entry⟩).1
          obtain ⟨rest, last⟩ := ih target (fun token member => noNul token (by simp [member])) found
          exact ⟨.cons ⟨alive, dir, look⟩ rest, last⟩
        · cases found
      · cases found
    · cases found

theorem Tree.namesFile (tree : Tree fs) (found : fs.resolve path = some i)
    (regular : sIsreg (fs.itable i).mode = true) : fs.NamesFile path i := by
  obtain ⟨walk, alive⟩ := tree.walk_passes tree.root.1 (fun token member => token_noNul member) found
  exact ⟨walk, alive, regular⟩

/-- A tree without old names is in order when live inodes have marked blocks. -/
theorem Tree.orderly (tree : Tree fs) (steady : Steady fs) (blank : fs.AllBlank)
    (counted : ∀ i, fs.live i = true → (fs.itable i).Counted)
    (marked : ∀ i, fs.live i = true → ∀ b ∈ (fs.itable i).blocks, fs.blockBits.test b = true) :
    fs.Orderly := by
  have shaped := steady.shaped
  have owned (i b : Nat) (member : b ∈ fs.liveBlocks i) : fs.live i = true ∧ b ∈ (fs.itable i).blocks := by
    rw [FsCtx.liveBlocks] at member
    split at member
    · rename_i alive
      exact ⟨alive, member⟩
    · cases member
  refine ⟨fun i range => ?_, fun b below => ?_, tree.root.2, fun i _ => (steady.sane i).high, counted,
    fun i b member => (tree.inside i b (owned i b member).2).1, ?_, fun i b member => ?_,
    fun d _ dir => .of_listed (tree.listed d dir) (blank d dir), ?_⟩
  · have few := shaped.fewInodes
    have marks := shaped.marks
    omega
  · have covered := shaped.covered
    omega
  · apply tree.exclusive.shrink
    intro i
    rw [FsCtx.liveBlocks]
    split
    · exact List.Sublist.refl _
    · exact List.nil_sublist _
  · obtain ⟨alive, member⟩ := owned i b member
    exact marked i alive b member
  · intro d d' a a' j _ _ dir dir' member member' _ _ number number'
    have used : fs.inUse a = true := inUse_iff.mpr (by omega)
    have used' : fs.inUse a' = true := inUse_iff.mpr (by omega)
    obtain ⟨name, k, same, named, edge⟩ := tree.edge_of_used dir member used
    obtain ⟨name', k', same', named', edge'⟩ := tree.edge_of_used dir' member' used'
    obtain rfl : k = j := by omega
    obtain rfl : k' = k := by omega
    obtain ⟨rfl, rfl⟩ := tree.once d d' name name' k' edge edge'
    exact ⟨rfl, (tree.listed d dir).distinct a member a' member' used used' name named.1 named.2.2.2
      named'.2.2.2⟩

end Tree

/-- Two files can be removed in either order. -/
theorem unlinks_commute {fs : FsCtx} {p q : CString} {i j : Nat} (env1 env2 env3 env4 : Env)
    (orderly : fs.Orderly) (first : fs.NamesFile p i) (second : fs.NamesFile q j) (differ : i ≠ j) :
    ∃ fs1 fs12 fs2 fs21, a1fsUnlink env1 fs p = .ok (fs1, 0) ∧ a1fsUnlink env2 fs1 q = .ok (fs12, 0) ∧
      a1fsUnlink env3 fs q = .ok (fs2, 0) ∧ a1fsUnlink env4 fs2 p = .ok (fs21, 0) ∧
      fs12.SameButTimes fs21 := by
  obtain ⟨d, a, name, holds⟩ := orderly.holds first
  obtain ⟨e, b, last, holds'⟩ := orderly.holds second
  have apart : a + 256 ≤ b ∨ b + 256 ≤ a := by
    by_cases same : d = e
    · subst same
      apply entries_apart holds.member holds'.member
      rintro rfl
      have number := holds.number
      rw [holds'.number] at number
      omega
    · exact entries_apart_of_disjoint (orderly.apart holds.passes.1 holds'.passes.1 same) holds.member
        holds'.member
  have after : (fs.unlinked i d a env1.now).Orderly := orderly.unlinked first holds
  have after' : (fs.unlinked j e b env3.now).Orderly := orderly.unlinked second holds'
  have kept : (fs.unlinked i d a env1.now).NamesFile q j :=
    FsCtx.NamesFile.unlinked orderly first holds second differ.symm
  have kept' : (fs.unlinked j e b env3.now).NamesFile p i :=
    FsCtx.NamesFile.unlinked orderly second holds' first differ
  have both := a1fsUnlink_returns env2 after kept
    (FsCtx.HoldsName.unlinked orderly first holds holds' differ.symm)
  have both' := a1fsUnlink_returns env4 after' kept'
    (FsCtx.HoldsName.unlinked orderly second holds' holds differ)
  refine ⟨_, _, _, _, a1fsUnlink_returns env1 orderly first holds, both,
    a1fsUnlink_returns env3 orderly second holds', both', ?_⟩
  exact unlinked_comm differ (first.apart holds.passes) (second.apart holds.passes)
    (first.apart holds'.passes) (second.apart holds'.passes) apart

/-- Two files in one directory, one of them with two blocks. -/
def twoFiles : Option FsCtx :=
  runCalls KeepsBlank quiet 10 device
    [.create pathA regularMode, .create pathB regularMode, .truncate pathA 5000]

theorem unlinks_commute_run : ∃ fs, twoFiles = some fs ∧ ∃ fs1 fs12 fs2 fs21,
    a1fsUnlink quiet fs pathA = .ok (fs1, 0) ∧ a1fsUnlink quiet fs1 pathB = .ok (fs12, 0) ∧
      a1fsUnlink quiet fs pathB = .ok (fs2, 0) ∧ a1fsUnlink quiet fs2 pathA = .ok (fs21, 0) ∧
      fs12.SameButTimes fs21 := by
  have returns : ∃ fs ∈ twoFiles, fs.sb.sbInodesCount = 16 ∧ fs.resolve pathA = some 1 ∧
      fs.resolve pathB = some 2 ∧ sIsreg (fs.itable 1).mode = true ∧ sIsreg (fs.itable 2).mode = true ∧
      ∀ i < 16, fs.live i = true → (∀ k ∈ (fs.itable i).usedSlots, 0 < ((fs.itable i).iExtent k).count) ∧
        ∀ b ∈ (fs.itable i).blocks, fs.blockBits.test b = true := by decide +kernel
  obtain ⟨fs, run, count, first, second, file, file', marks⟩ := returns
  obtain ⟨steady, tree, blank⟩ := keepsBlank_reaches (runCalls_reaches (.initial device_initial) run)
  have below (i : Nat) (alive : fs.live i = true) : i < 16 := by
    have range := (live_iff.mp alive).1
    omega
  have orderly : fs.Orderly := tree.orderly steady blank (fun i alive => (marks i (below i alive) alive).1)
    fun i alive => (marks i (below i alive) alive).2
  exact ⟨fs, run, unlinks_commute quiet quiet quiet quiet orderly (tree.namesFile first file)
    (tree.namesFile second file') (by decide)⟩

end ExtentFs
