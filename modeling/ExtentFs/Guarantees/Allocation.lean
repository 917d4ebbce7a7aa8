import ExtentFs.Invariants.Steady

namespace ExtentFs

open Base

/-- Free blocks for a request, in no more pieces than the inode has free extent slots. -/
def FsCtx.Satisfiable (fs : FsCtx) (i n : Nat) : Prop :=
  ∃ pieces : List (Nat × Nat), pieces.length ≤ 11 - (fs.itable i).lastUsedExtent ∧
    (pieces.flatMap fun p => List.range' p.1 p.2).Nodup ∧
    (pieces.flatMap fun p => List.range' p.1 p.2).length = n ∧
    ∀ b ∈ pieces.flatMap fun p => List.range' p.1 p.2, b ∈ fs.freeBlocks

/-- The inode has got `n` free blocks and these are marked. -/
def FsCtx.Obtains (fs : FsCtx) (i n : Nat) (fs' : FsCtx) : Prop :=
  ∃ added : List Nat, added.Nodup ∧ added.length = n ∧ (∀ b ∈ added, b ∈ fs.freeBlocks) ∧
    (fs'.itable i).blocks.Perm ((fs.itable i).blocks ++ added) ∧
    ∀ b, fs'.blockBits.test b = (fs.blockBits.test b || decide (b ∈ added))

/-- `make_data_blocks` terminates; it serves a request that can be served and leaves the
    bitmap, the counters and the inodes alone otherwise. -/
def MakesBlocks (fs : FsCtx) (i n : Nat) (now : Timespec) : Prop :=
  ∃ fuel fs' r, makeDataBlocks i now fuel fs n = .ok (fs', r) ∧
    (fs.Satisfiable i n → r = n ∧ fs.Obtains i n fs') ∧
    (¬ fs.Satisfiable i n →
      r = -1 ∧ fs'.blockBits = fs.blockBits ∧ fs'.sb = fs.sb ∧ fs'.itable = fs.itable)

/-- The search finds `n` blocks in one piece inside the data region, the inode has a slot for
    them and no block in use behind its last extent. -/
def FoundInOnePiece (fs : FsCtx) (i n : Nat) : Prop :=
  (∃ first : Nat, getAvailableBit fs.sb fs.blockBits .data n = .ok (first : Int) ∧
    first + n ≤ fs.dataBlocks) ∧
  -1 ≤ (fs.itable i).lastUsedExtent ∧ (fs.itable i).lastUsedExtent < 11 ∧ fs.StartsExtent i n

variable {fs fs' : FsCtx} {i n fuel : Nat} {now : Timespec}

theorem makeDataBlocks_returns (steady : Steady fs) (found : FoundInOnePiece fs i n) :
    ∃ fs' r, makeDataBlocks i now 1 fs n = .ok (fs', r) := by
  obtain ⟨⟨first, search, inside⟩, low, room, starts⟩ := found
  have covered := steady.shaped.covered
  refine ⟨_, _, makeDataBlocks_append search low room starts fun j member => ?_⟩
  rw [List.mem_range'_1] at member
  omega

theorem Steady.obtains (steady : Steady fs) {first : Nat} {inode : A1fsInode}
    (growth : Growth fs i n now first inode) (starts : fs.attaches i n = false)
    (inside : first + n ≤ fs.dataBlocks) :
    fs.Obtains i n ((fs.setInode i inode).flipBlocks (List.range' first n) 1) := by
  have region : ∀ b ∈ List.range' first n, b < fs.dataBlocks := by
    intro b member
    rw [List.mem_range'_1] at member
    omega
  have clear := steady.growth_clear growth starts region
  refine ⟨List.range' first n, List.nodup_range', List.length_range', ?_, ?_, ?_⟩
  · intro b member
    exact Bitmap.mem_clear.mpr ⟨region b member, clear b member⟩
  · rw [FsCtx.flipBlocks_itable, FsCtx.setInode_self, growth.blocks]
  · intro b
    change (fs.blockBits.flipAll (List.range' first n)).test b = _
    rw [Bitmap.test_flipAll List.nodup_range']
    by_cases member : b ∈ List.range' first n
    · simp [clear b member, member]
    · simp [member]

theorem FsCtx.Obtains.satisfiable {first : Nat} (obtains : fs.Obtains i n fs')
    (blocks : (fs'.itable i).blocks = (fs.itable i).blocks ++ List.range' first n)
    (room : (fs.itable i).lastUsedExtent < 11) : fs.Satisfiable i n := by
  obtain ⟨added, nodup, length, free, perm, -⟩ := obtains
  rw [blocks, List.perm_append_left_iff] at perm
  refine ⟨[(first, n)], ?_, ?_, ?_, ?_⟩
  · rw [List.length_singleton]
    omega
  · rw [List.flatMap_singleton]
    exact List.nodup_range'
  · rw [List.flatMap_singleton, List.length_range']
  · rw [List.flatMap_singleton]
    exact fun b member => free b (perm.subset member)

/-- `make_data_blocks` meets its description exactly when it need not recurse. -/
theorem makes_blocks_iff {guard : FsCtx → Event → Prop} (run : a1fs.Reaches guard fs)
    (some : 0 < n) : MakesBlocks fs i n now ↔ FoundInOnePiece fs i n := by
  have steady := steady_of_reaches run
  constructor
  · rintro ⟨fuel, fs', r, returned, served, refused⟩
    obtain ⟨rfl, m, same, first, inode, growth, bits, rfl⟩ :=
      makeDataBlocks_ok steady.shaped.range returned
    obtain rfl : n = m := by omega
    have satisfiable : fs.Satisfiable i n := by
      by_contra unsatisfiable
      have minus := (refused unsatisfiable).1
      omega
    obtain ⟨-, added, -, -, free, perm, -⟩ := served satisfiable
    rw [FsCtx.flipBlocks_itable, FsCtx.setInode_self, growth.blocks,
      List.perm_append_left_iff] at perm
    have inside (b : Nat) (member : b ∈ List.range' first n) :
        b < fs.dataBlocks ∧ fs.blockBits.test b = false :=
      Bitmap.mem_clear.mp (free b (perm.subset member))
    cases growth with
    | append found starts low room =>
      have last := inside (first + (n - 1)) (by rw [List.mem_range'_1]; omega)
      exact ⟨⟨first, found, by omega⟩, low, room, starts⟩
    | attach found taken low room =>
      exfalso
      rw [FsCtx.attaches] at taken
      split at taken
      · rename_i answer
        obtain ⟨-, -, -, -, rfl, used⟩ := attachable_ok answer
        rw [taken, eq_comm, List.any_eq_true] at used
        obtain ⟨b, member, set⟩ := used
        rw [(inside b member).2] at set
        cases set
      · cases taken
  · intro found
    obtain ⟨fs', r, returned⟩ : ∃ fs' r, makeDataBlocks i now 1 fs n = .ok (fs', r) :=
      makeDataBlocks_returns steady found
    obtain ⟨⟨first, search, inside⟩, low, room, starts⟩ := found
    obtain ⟨rfl, m, same, first', inode, growth, bits, rfl⟩ :=
      makeDataBlocks_ok steady.shaped.range returned
    obtain rfl : n = m := by omega
    have at_first : first' = first := by
      cases growth with
      | append search' =>
        rw [search] at search'
        cases search'
        rfl
      | attach _ taken =>
        rw [starts.attaches] at taken
        cases taken
    subst at_first
    have obtains := steady.obtains growth starts.attaches inside
    have blocks : (((fs.setInode i inode).flipBlocks (List.range' first' n) 1).itable i).blocks =
        (fs.itable i).blocks ++ List.range' first' n := by
      rw [FsCtx.flipBlocks_itable, FsCtx.setInode_self, growth.blocks]
    exact ⟨1, _, _, returned, fun _ => ⟨rfl, obtains⟩,
      fun unsatisfiable => absurd (obtains.satisfiable blocks room) unsatisfiable⟩

def oneFileRun : Option FsCtx :=
  runCalls (fun fs event => Documented fs event.call) quiet 10 device [.create pathA regularMode]

theorem makes_blocks_iff_three : ∃ fs, oneFileRun = some fs ∧ MakesBlocks fs 1 3 ⟨0, 0⟩ := by
  have found : ∃ fs ∈ oneFileRun, getAvailableBit fs.sb fs.blockBits .data 3 = .ok 1 ∧
      1 + 3 ≤ fs.dataBlocks ∧ (fs.itable 1).lastUsedExtent = -1 := by decide +kernel
  obtain ⟨fs, run, search, inside, unused⟩ := found
  refine ⟨fs, run, (makes_blocks_iff (runCalls_reaches (.initial device_initial) run)
    (by decide)).mpr ⟨⟨1, search, inside⟩, ?_, ?_, .inl unused⟩⟩
  · omega
  · omega

/-- A request for more blocks than are free is repeated without end. -/
theorem makes_blocks_fails :
    ∃ fs, a1fs.Reaches (fun fs event => Documented fs event.call) fs ∧ fs.live 1 = true ∧
      sIsreg (fs.itable 1).mode = true ∧ ¬ MakesBlocks fs 1 12 ⟨0, 0⟩ := by
  have refused : ∃ fs ∈ oneFileRun, fs.live 1 = true ∧ sIsreg (fs.itable 1).mode = true ∧
      getAvailableBit fs.sb fs.blockBits .data 12 = .ok (-1) := by decide +kernel
  obtain ⟨fs, run, live, regular, search⟩ := refused
  have reached := runCalls_reaches (.initial device_initial) run
  refine ⟨fs, reached, live, regular, ?_⟩
  rintro ⟨fuel, fs', r, returned, -, -⟩
  obtain ⟨-, n, same, first, inode, growth, -, -⟩ :=
    makeDataBlocks_ok (steady_of_reaches reached).shaped.range returned
  obtain rfl : 12 = n := by omega
  cases growth with
  | append found =>
    rw [show ((12 : Nat) : Int) = 12 from rfl, search] at found
    cases found
  | attach found =>
    rw [show ((12 : Nat) : Int) = 12 from rfl, search] at found
    cases found

/-- `attachable` names the last extent and the block behind it, and answers non-zero exactly when
    the `n` blocks from there on are free blocks of the data region. -/
def DecidesAttachment (fs : FsCtx) (i n : Nat) : Prop :=
  ∃ attach, attachable fs i n =
      .ok (attach, (fs.itable i).lastUsedExtent.toNat, (fs.itable i).blockAfter) ∧
    (attach = true ↔ ∀ b ∈ List.range' (fs.itable i).blockAfter n,
      b < fs.dataBlocks ∧ fs.blockBits.test b = false)

/-- The answer has the wrong sense: it is right only for free bits that go past the end of the data
    region. -/
theorem attachable_iff (direct : (fs.itable i).lastUsedIndirect = -1)
    (used : 0 ≤ (fs.itable i).lastUsedExtent) (slots : (fs.itable i).lastUsedExtent < 12)
    (some : 0 < n) :
    DecidesAttachment fs i n ↔
      (∀ b ∈ List.range' (fs.itable i).blockAfter n,
        b / 8 < fs.blockBits.length ∧ fs.blockBits.test b = false) ∧
        fs.dataBlocks < (fs.itable i).blockAfter + n := by
  constructor
  · rintro ⟨attach, answer, decides⟩
    cases attach with
    | true =>
      obtain ⟨-, -, -, -, -, taken⟩ := attachable_ok answer
      obtain ⟨b, member, set⟩ := List.any_eq_true.mp taken.symm
      obtain ⟨-, clear⟩ := decides.mp rfl b member
      rw [set] at clear
      cases clear
    | false =>
      have clear := (attachable_free direct used slots).mp answer
      refine ⟨clear, ?_⟩
      by_contra inside
      have all : ∀ b ∈ List.range' (fs.itable i).blockAfter n,
          b < fs.dataBlocks ∧ fs.blockBits.test b = false := by
        intro b member
        have range := List.mem_range'_1.mp member
        exact ⟨by omega, (clear b member).2⟩
      cases decides.mpr all
  · rintro ⟨clear, beyond⟩
    refine ⟨false, (attachable_free direct used slots).mpr clear, ?_⟩
    constructor
    · rintro ⟨⟩
    · intro inside
      have last : (fs.itable i).blockAfter + (n - 1) ∈ List.range' (fs.itable i).blockAfter n :=
        List.mem_range'_1.mpr ⟨by omega, by omega⟩
      have below := (inside _ last).1
      omega

def fullFileRun : Option FsCtx :=
  runCalls (fun fs event => Documented fs event.call) quiet 10 device
    [.create pathA regularMode, .truncate pathA 45056]

theorem attachable_iff_end : ∃ fs, fullFileRun = some fs ∧ DecidesAttachment fs 1 1 := by
  have found : ∃ fs ∈ fullFileRun, (fs.itable 1).lastUsedIndirect = -1 ∧
      0 ≤ (fs.itable 1).lastUsedExtent ∧ (fs.itable 1).lastUsedExtent < 12 ∧
      (∀ b ∈ List.range' (fs.itable 1).blockAfter 1,
        b / 8 < fs.blockBits.length ∧ fs.blockBits.test b = false) ∧
      fs.dataBlocks < (fs.itable 1).blockAfter + 1 := by
    decide +kernel
  obtain ⟨fs, run, direct, used, slots, beyond⟩ := found
  exact ⟨fs, run, (attachable_iff direct used slots (by decide)).mpr beyond⟩

def oneBlockRun : Option FsCtx :=
  runCalls (fun fs event => Documented fs event.call) quiet 10 device
    [.create pathA regularMode, .truncate pathA 100]

/-- The block behind the file's only extent is free and the answer is 0. -/
theorem attachable_fails :
    ∃ fs, a1fs.Reaches (fun fs event => Documented fs event.call) fs ∧ fs.live 1 = true ∧
      (fs.itable 1).lastUsedIndirect = -1 ∧ (fs.itable 1).lastUsedExtent = 0 ∧
      (fs.itable 1).blockAfter < fs.dataBlocks ∧ fs.blockBits.test (fs.itable 1).blockAfter = false ∧
      ¬ DecidesAttachment fs 1 1 := by
  have found : ∃ fs ∈ oneBlockRun, fs.live 1 = true ∧ (fs.itable 1).lastUsedIndirect = -1 ∧
      (fs.itable 1).lastUsedExtent = 0 ∧ (fs.itable 1).blockAfter < fs.dataBlocks ∧
      fs.blockBits.test (fs.itable 1).blockAfter = false ∧
      attachable fs 1 1 = .ok (false, 0, (fs.itable 1).blockAfter) := by
    decide +kernel
  obtain ⟨fs, run, live, direct, used, inside, clear, answer⟩ := found
  refine ⟨fs, runCalls_reaches (.initial device_initial) run, live, direct, used, inside, clear, ?_⟩
  rintro ⟨attach, returned, decides⟩
  rw [answer, Except.ok.injEq, Prod.mk.injEq] at returned
  obtain ⟨rfl, -⟩ := returned
  have free : ∀ b ∈ List.range' (fs.itable 1).blockAfter 1, b < fs.dataBlocks ∧ fs.blockBits.test b = false := by
    intro b member
    obtain rfl : b = (fs.itable 1).blockAfter := by simpa using member
    exact ⟨inside, clear⟩
  cases decides.mpr free

end ExtentFs
