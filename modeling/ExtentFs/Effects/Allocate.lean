import ExtentFs.Effects.State
import ExtentFs.Model.Helper

namespace ExtentFs

open Base

theorem anyInUse_ok {bitmap : Bitmap} {l : List Nat} {used : Bool}
    (h : anyInUse bitmap l = .ok used) : used = l.any bitmap.test := by
  induction l with
  | nil =>
    cases h
    rfl
  | cons i l ih =>
    rw [anyInUse, bind_eq_ok] at h
    obtain ⟨bit, test, rest⟩ := h
    obtain ⟨-, rfl⟩ := checkBitUsage_ok.mp test
    cases bit : bitmap.test i with
    | true =>
      simp only [bit, if_true, pure_eq_ok] at rest
      simp [bit, ← rest]
    | false =>
      simp only [bit, Bool.false_eq_true, if_false] at rest
      simp [bit, ← ih rest]

theorem anyInUse_clear {bitmap : Bitmap} {l : List Nat} :
    anyInUse bitmap l = .ok false ↔ ∀ b ∈ l, b / 8 < bitmap.length ∧ bitmap.test b = false := by
  constructor
  · intro h
    induction l with
    | nil => simp
    | cons i l ih =>
      rw [anyInUse, bind_eq_ok] at h
      obtain ⟨bit, test, rest⟩ := h
      obtain ⟨inside, rfl⟩ := checkBitUsage_ok.mp test
      split at rest
      · cases rest
      · rename_i clear
        intro b member
        rcases List.mem_cons.mp member with rfl | member
        · exact ⟨inside, by simpa using clear⟩
        · exact ih rest b member
  · intro clear
    induction l with
    | nil => rfl
    | cons i l ih =>
      obtain ⟨inside, unused⟩ := clear i (by simp)
      have test : checkBitUsage bitmap i = .ok false := checkBitUsage_ok.mpr ⟨inside, unused.symm⟩
      rw [anyInUse, test, ok_bind]
      exact ih fun b member => clear b (by simp [member])

theorem attachable_ok {fs : FsCtx} {i n index after : Nat} {attach : Bool}
    (h : attachable fs i n = .ok (attach, index, after)) :
    (fs.itable i).lastUsedIndirect = -1 ∧ 0 ≤ (fs.itable i).lastUsedExtent ∧
      (fs.itable i).lastUsedExtent < 12 ∧ index = (fs.itable i).lastUsedExtent.toNat ∧
      after = (fs.itable i).blockAfter ∧ attach = (List.range' after n).any fs.blockBits.test := by
  rw [attachable] at h
  split at h
  · cases h
  · rename_i direct
    simp only [bind_eq_ok, A1fsInode.extentAt, guard_eq_ok] at h
    obtain ⟨last, ⟨inside, read⟩, used, search, rest⟩ := h
    cases read
    cases rest
    refine ⟨by omega, by omega, by omega, rfl, rfl, anyInUse_ok search⟩

theorem attachable_free {fs : FsCtx} {i n : Nat} (direct : (fs.itable i).lastUsedIndirect = -1)
    (used : 0 ≤ (fs.itable i).lastUsedExtent) (slots : (fs.itable i).lastUsedExtent < 12) :
    attachable fs i n = .ok (false, (fs.itable i).lastUsedExtent.toNat, (fs.itable i).blockAfter) ↔
      ∀ b ∈ List.range' (fs.itable i).blockAfter n,
        b / 8 < fs.blockBits.length ∧ fs.blockBits.test b = false := by
  have last : (fs.itable i).extentAt (fs.itable i).lastUsedExtent.toNat =
      .ok ((fs.itable i).iExtent (fs.itable i).lastUsedExtent.toNat) := by
    rw [A1fsInode.extentAt, if_pos (by omega)]
  rw [attachable, if_neg (by omega)]
  dsimp only
  rw [last, ok_bind, ← anyInUse_clear]
  constructor
  · intro answer
    rw [bind_eq_ok] at answer
    obtain ⟨set, search, result⟩ := answer
    cases result
    exact search
  · intro search
    change (anyInUse fs.blockBits (List.range' (fs.itable i).blockAfter n) >>= _) = _
    rw [search]
    rfl

namespace FsCtx

/-- A growth by `n` blocks goes to the end of the last extent. `attachable` answers 1 when
    one of the blocks there is in use. -/
def attaches (fs : FsCtx) (i n : Nat) : Bool :=
  match attachable fs i n with
  | .ok (attach, _, _) => attach
  | .error _ => false

/-- A growth by `n` blocks gets an extent of its own. -/
def StartsExtent (fs : FsCtx) (i n : Nat) : Prop :=
  (fs.itable i).lastUsedExtent = -1 ∨ ∃ index after, attachable fs i n = .ok (false, index, after)

theorem StartsExtent.attaches {fs : FsCtx} {i n : Nat} (starts : fs.StartsExtent i n) :
    fs.attaches i n = false := by
  rcases starts with unused | ⟨index, after, answer⟩
  · have fault : attachable fs i n = .error .badSlot := by
      rw [attachable, if_pos (by omega)]
    rw [FsCtx.attaches, fault]
  · rw [FsCtx.attaches, answer]

instance (fs : FsCtx) (i n : Nat) : Decidable (fs.StartsExtent i n) :=
  decidable_of_iff ((fs.itable i).lastUsedExtent = -1 ∨ ∃ r, attachable fs i n = .ok r ∧ r.1 = false) <| by
    refine or_congr_right ⟨?_, ?_⟩
    · rintro ⟨⟨attach, index, after⟩, answer, rfl⟩
      exact ⟨index, after, answer⟩
    · rintro ⟨index, after, answer⟩
      exact ⟨_, answer, rfl⟩

def freeEntries (data : Bytes) (block : Nat) : Bytes :=
  (List.range' 0 16 256).foldl (fun m k => m.set32 (4096 * block + k) (-1#32)) data

end FsCtx

/-- What an inode becomes when it gets `n` blocks, and where these start. -/
inductive Growth (fs : FsCtx) (i n : Nat) (now : Timespec) : Nat → A1fsInode → Prop
  | append {start : Nat} (found : getAvailableBit fs.sb fs.blockBits .data n = .ok start)
      (answer : fs.StartsExtent i n) (low : -1 ≤ (fs.itable i).lastUsedExtent)
      (room : (fs.itable i).lastUsedExtent < 11) :
      Growth fs i n now start ((fs.itable i).appendExtent ⟨start, n, 0⟩ now)
  | attach {start : Nat} (found : getAvailableBit fs.sb fs.blockBits .data n = .ok start)
      (taken : fs.attaches i n = true) (low : 0 ≤ (fs.itable i).lastUsedExtent)
      (room : (fs.itable i).lastUsedExtent < 12) :
      Growth fs i n now (fs.itable i).blockAfter ((fs.itable i).extendLast n now)

section Allocate

variable {fs fs' : FsCtx} {i n start block : Nat} {now : Timespec}

theorem setDbExtent_ok {inode inode' : A1fsInode} {index : Nat} {new : Bool}
    (h : setDbExtent inode index start n new now = .ok inode') :
    index < 12 ∧ inode' = { inode.setExtent index (if new then ⟨start, n, 0⟩
      else { inode.iExtent index with count := (inode.iExtent index).count + n }) with
        iMtime := now } := by
  simp only [setDbExtent, bind_eq_ok, A1fsInode.extentAt, guard_eq_ok, pure_eq_ok] at h
  obtain ⟨old, ⟨inside, read⟩, rfl⟩ := h
  cases read
  exact ⟨inside, rfl⟩

theorem freeDentries_ok {l : List Nat} {first : Nat}
    (h : l.foldlM (fun fs k => freeDentry fs first k) fs = .ok fs') :
    fs' = { fs with data := l.foldl (fun m k => m.set32 (4096 * first + k) (-1#32)) fs.data } ∧
      ∀ k ∈ l, 4096 * first + k + 256 ≤ fs.dataSize ∧ 4096 * first < 2 ^ 31 := by
  induction l generalizing fs with
  | nil =>
    cases h
    exact ⟨rfl, by simp⟩
  | cons k l ih =>
    rw [List.foldlM_cons, bind_eq_ok] at h
    obtain ⟨freed, head, rest⟩ := h
    simp only [freeDentry, FsCtx.dentryAddr, FsCtx.blockOffset, bind_eq_ok, intArith_ok, guard_eq_ok,
      pure_eq_ok] at head
    obtain ⟨addr, ⟨offset, ⟨bounds, rfl⟩, inside, place⟩, rfl⟩ := head
    cases place
    have addrEq : (4096 * (first : Int)).toNat + k = 4096 * first + k := by omega
    obtain ⟨rfl, insideRest⟩ := ih rest
    refine ⟨?_, ?_⟩
    · simp only [addrEq, List.foldl_cons]
    · intro k' member
      rcases List.mem_cons.mp member with rfl | member
      · exact ⟨by omega, by omega⟩
      · exact insideRest k' member

/-- The file system after `inode` has been written back with a new extent. A directory block
    that goes to an old extent leaves the entries of the extent's first block free instead. -/
def FsCtx.grown (fs : FsCtx) (i : Nat) (inode : A1fsInode) : BlockType → FsCtx
  | .data => fs.setInode i inode
  | .directory => { fs.setInode i inode with
      data := FsCtx.freeEntries fs.data (inode.iExtent inode.lastUsedExtent.toNat).start }

/-- The entries that a new directory block initialises are in the data region. -/
def FsCtx.EntriesInside (fs : FsCtx) (inode : A1fsInode) : Prop :=
  let first := (inode.iExtent inode.lastUsedExtent.toNat).start
  4096 * first + 4096 ≤ fs.dataSize ∧ 4096 * first < 2 ^ 31

theorem placeExtent_ok {index : Nat} {new : Bool} {dbType : BlockType}
    (last : (fs.itable i).lastUsedExtent = index)
    (h : placeExtent fs i index start n new dbType now = .ok (fs', block)) :
    block = start ∧ index < 12 ∧ ∃ inode,
      inode = { (fs.itable i).setExtent index (if new then ⟨start, n, 0⟩
        else { (fs.itable i).iExtent index with
          count := ((fs.itable i).iExtent index).count + n }) with iMtime := now } ∧
      fs' = fs.grown i inode dbType ∧ (dbType = .directory → fs.EntriesInside inode) := by
  cases dbType with
  | data =>
    simp only [placeExtent, bind_eq_ok, pure_eq_ok] at h
    obtain ⟨inode, set, rest⟩ := h
    cases rest
    obtain ⟨inside, rfl⟩ := setDbExtent_ok set
    exact ⟨rfl, inside, _, rfl, rfl, fun directory => by cases directory⟩
  | directory =>
    simp only [placeExtent, setDirbExtent, bind_eq_ok, pure_eq_ok] at h
    obtain ⟨freed, ⟨inode, set, fold⟩, rest⟩ := h
    cases rest
    obtain ⟨inside, placed⟩ := setDbExtent_ok set
    have index' : inode.lastUsedExtent.toNat = index := by
      rw [placed]
      simp only [A1fsInode.setExtent, last]
      omega
    obtain ⟨rfl, entries⟩ := freeDentries_ok fold
    refine ⟨rfl, inside, inode, placed, ?_, fun _ => ?_⟩
    · simp only [FsCtx.grown, FsCtx.freeEntries, index']
      rfl
    · have low := entries 0 (by decide)
      have high := entries 3840 (by decide)
      simp only [FsCtx.EntriesInside, index']
      simp only [FsCtx.setInode_dataSize] at low high
      omega

theorem allocateDataBlks_ok {dbType : BlockType}
    (found : getAvailableBit fs.sb fs.blockBits .data n = .ok start)
    (h : allocateDataBlks fs i start n dbType now = .ok (fs', block)) :
    ∃ inode, Growth fs i n now block inode ∧ fs' = fs.grown i inode dbType ∧
      (dbType = .directory → fs.EntriesInside inode) := by
  have rewrite (inode placed : A1fsInode) :
      (fs.setInode i inode).grown i placed dbType = fs.grown i placed dbType := by
    cases dbType <;> simp only [FsCtx.grown, FsCtx.setInode_setInode, FsCtx.setInode_data]
  rw [allocateDataBlks] at h
  split at h
  · rename_i unused
    obtain ⟨rfl, -, placed, shape, rfl, inside⟩ :=
      placeExtent_ok (by simp [setLastUsedExtent]) h
    have appended : placed = (fs.itable i).appendExtent ⟨block, n, 0⟩ now := by
      rw [shape]
      simp [setLastUsedExtent, A1fsInode.appendExtent, A1fsInode.setExtent, unused]
    refine ⟨placed, ?_, rewrite _ _, inside⟩
    rw [appended]
    exact .append found (.inl unused) (by omega) (by omega)
  · rw [bind_eq_ok] at h
    obtain ⟨⟨attach, index, after⟩, answer, h⟩ := h
    obtain ⟨-, low, high, rfl, rfl, -⟩ := attachable_ok answer
    cases attach with
    | true =>
      have attaches : fs.attaches i n = true := by rw [FsCtx.attaches, answer]
      obtain ⟨rfl, -, placed, shape, rfl, inside⟩ := placeExtent_ok (by omega) h
      refine ⟨placed, ?_, rfl, inside⟩
      rw [shape]
      exact .attach found attaches low high
    | false =>
      obtain ⟨rfl, room, placed, shape, rfl, inside⟩ :=
        placeExtent_ok (by simp [setLastUsedExtent]) h
      have next : ((fs.itable i).lastUsedExtent + 1).toNat = (fs.itable i).lastUsedExtent.toNat + 1 := by
        omega
      have next' : ((fs.itable i).lastUsedExtent.toNat + 1 : Nat) =
          (fs.itable i).lastUsedExtent + 1 := by omega
      have appended : placed = (fs.itable i).appendExtent ⟨block, n, 0⟩ now := by
        rw [shape]
        simp only [setLastUsedExtent, FsCtx.setInode_self, A1fsInode.appendExtent,
          A1fsInode.setExtent, next, next', if_true]
      refine ⟨placed, ?_, rewrite _ _, inside⟩
      rw [appended]
      exact .append found (.inr ⟨_, _, answer⟩) (by omega) (by omega)

theorem grown_flip {inode : A1fsInode} {dbType : BlockType} {l : List Nat}
    {sb : A1fsSuperblock} {bits : Bitmap} (count : sb = { fs.sb with
      sbFreeBlocksCount := countFlips 1 fs.sb.sbFreeBlocksCount l.length })
    (flipped : bits = fs.blockBits.flipAll l) :
    { fs.grown i inode dbType with sb := sb, blockBits := bits } =
      (fs.grown i inode dbType).flipBlocks l 1 := by
  subst count flipped
  cases dbType <;> rfl

theorem grown_sb {inode : A1fsInode} {dbType : BlockType} : (fs.grown i inode dbType).sb = fs.sb := by
  cases dbType <;> rfl

theorem grown_blockBits {inode : A1fsInode} {dbType : BlockType} :
    (fs.grown i inode dbType).blockBits = fs.blockBits := by
  cases dbType <;> rfl

theorem makeDentryBlock_ok {r : Int} (h : makeDentryBlock fs i now = .ok (fs', r)) :
    (fs' = fs ∧ r = -1 ∧ ∃ a < 0, getAvailableBit fs.sb fs.blockBits .data 1 = .ok a) ∨
      (r = 0 ∧ ∃ block inode, Growth fs i 1 now block inode ∧ fs.EntriesInside inode ∧
        fs' = (fs.grown i inode .directory).flipBlocks [block] 1) := by
  rw [makeDentryBlock, bind_eq_ok] at h
  obtain ⟨available, search, h⟩ := h
  split at h
  · rename_i none
    cases h
    exact .inl ⟨rfl, rfl, available, none, search⟩
  · rw [bind_eq_ok] at h
    obtain ⟨⟨placed, block⟩, allocate, h⟩ := h
    rw [bind_eq_ok] at h
    obtain ⟨⟨sb, bits⟩, set, h⟩ := h
    cases h
    obtain ⟨start, rfl⟩ : ∃ start : Nat, available = start := ⟨available.toNat, by omega⟩
    obtain ⟨inode, growth, rfl, inside⟩ := allocateDataBlks_ok search allocate
    obtain ⟨-, flipped, counted⟩ := setBits_data_ok.mp set
    rw [grown_sb] at counted
    rw [grown_blockBits] at flipped
    exact .inr ⟨rfl, block, inode, growth, inside rfl, grown_flip counted flipped⟩

theorem allocateDataBlks_returns {first : Nat} (low : -1 ≤ (fs.itable i).lastUsedExtent)
    (room : (fs.itable i).lastUsedExtent < 11) (starts : fs.StartsExtent i n) :
    ∃ fs1 block, allocateDataBlks fs i first n .data now = .ok (fs1, block) := by
  by_cases unused : (fs.itable i).lastUsedExtent = -1
  · simp only [allocateDataBlks, unused, if_true, placeExtent, setDbExtent, A1fsInode.extentAt,
      Nat.zero_lt_succ, ok_bind]
    exact ⟨_, _, rfl⟩
  · rcases starts with none | ⟨index, after, answer⟩
    · exact absurd none unused
    · obtain ⟨-, -, -, rfl, -, -⟩ := attachable_ok answer
      have slot : (fs.itable i).lastUsedExtent.toNat + 1 < 12 := by omega
      simp only [allocateDataBlks, unused, if_false, answer, ok_bind, Bool.false_eq_true,
        placeExtent, setDbExtent, A1fsInode.extentAt, slot, if_true]
      exact ⟨_, _, rfl⟩

/-- Blocks found for an inode with a free slot and no block in use behind its last extent become an extent of
    their own. -/
theorem makeDataBlocks_append {fuel first : Nat}
    (found : getAvailableBit fs.sb fs.blockBits .data n = .ok (first : Int))
    (low : -1 ≤ (fs.itable i).lastUsedExtent) (room : (fs.itable i).lastUsedExtent < 11)
    (starts : fs.StartsExtent i n) (bits : ∀ j ∈ List.range' first n, j / 8 < fs.blockBits.length) :
    makeDataBlocks i now (fuel + 1) fs n = .ok ((fs.setInode i ((fs.itable i).appendExtent
      ⟨first, n, 0⟩ now)).flipBlocks (List.range' first n) 1, (n : Int)) := by
  obtain ⟨fs1, block, allocate⟩ : ∃ fs1 block,
      allocateDataBlks fs i first n .data now = .ok (fs1, block) :=
    allocateDataBlks_returns low room starts
  obtain ⟨inode, growth, rfl, -⟩ := allocateDataBlks_ok found allocate
  have placed : block = first ∧ inode = (fs.itable i).appendExtent ⟨first, n, 0⟩ now := by
    cases growth with
    | append found' =>
      rw [found] at found'
      cases found'
      exact ⟨rfl, rfl⟩
    | attach _ taken =>
      rw [starts.attaches] at taken
      cases taken
  obtain ⟨rfl, rfl⟩ := placed
  have some : (block : Int) > -1 := by omega
  rw [makeDataBlocks, found, ok_bind, if_pos some, Int.toNat_natCast, Int.toNat_natCast, allocate, ok_bind]
  dsimp only
  have set : setBits (fs.grown i ((fs.itable i).appendExtent ⟨block, n, 0⟩ now) .data).sb
      (fs.grown i ((fs.itable i).appendExtent ⟨block, n, 0⟩ now) .data).blockBits block .data n 1 =
      .ok (_, _) := setBits_data_ok.mpr ⟨bits, rfl, rfl⟩
  rw [set, Int.toNat_natCast]
  simp only [ok_bind, FsCtx.flipBlocks, List.length_range']
  rfl

/-- A loop whose body never answers -1 does not end. -/
theorem createRepeatedly_never {make : FsCtx → Checked (FsCtx × Int)} {P : FsCtx → Prop}
    {numBlocks total r : Int} {fuel : Nat} (some : 0 < numBlocks)
    (keeps : ∀ fs fs' c, P fs → make fs = .ok (fs', c) → c ≠ -1 ∧ P fs') (start : P fs) :
    createRepeatedly make numBlocks fuel fs total ≠ .ok (fs', r) := by
  induction fuel generalizing fs total with
  | zero =>
    intro h
    cases h
  | succ fuel ih =>
    rw [createRepeatedly]
    intro h
    rw [bind_eq_ok] at h
    obtain ⟨⟨made, created⟩, once, h⟩ := h
    obtain ⟨answer, next⟩ := keeps _ _ _ start once
    simp only [answer, ne_eq, not_false_eq_true, if_true, Int.sub_zero, gt_iff_lt, some] at h
    exact ih next h

/-- `make_data_blocks` returns only when it finds the blocks in one piece; a recursive call is
    repeated for ever. -/
theorem makeDataBlocks_ok {fuel : Nat} {numBlocks r : Int}
    (range : (fs.sb.sbFirstEmptyDb : Int) ≤ fs.sb.maxIndex)
    (h : makeDataBlocks i now fuel fs numBlocks = .ok (fs', r)) :
    r = numBlocks ∧ ∃ n : Nat, numBlocks = n ∧ ∃ start inode, Growth fs i n now start inode ∧
      (∀ j ∈ List.range' start n, j / 8 < fs.blockBits.length) ∧
      fs' = (fs.setInode i inode).flipBlocks (List.range' start n) 1 := by
  induction fuel generalizing fs fs' numBlocks r with
  | zero => cases h
  | succ fuel ih =>
    rw [makeDataBlocks, bind_eq_ok] at h
    obtain ⟨available, search, h⟩ := h
    split at h
    · rename_i found
      rcases getAvailableBit_data range search with none | ⟨start, rfl, positive, -, -⟩
      · omega
      · obtain ⟨n, rfl⟩ : ∃ n : Nat, numBlocks = n := ⟨numBlocks.toNat, by omega⟩
        rw [bind_eq_ok] at h
        obtain ⟨⟨placed, block⟩, allocate, h⟩ := h
        rw [bind_eq_ok] at h
        obtain ⟨⟨sb, bits⟩, set, h⟩ := h
        cases h
        obtain ⟨inode, growth, rfl, -⟩ := allocateDataBlks_ok search allocate
        obtain ⟨inside, rfl, rfl⟩ := setBits_data_ok.mp set
        refine ⟨rfl, n, rfl, block, inode, growth, inside, ?_⟩
        simp only [Int.toNat_natCast, FsCtx.flipBlocks, List.length_range']
        rfl
    · exfalso
      have once (fs fs' : FsCtx) (c : Int) (range : (fs.sb.sbFirstEmptyDb : Int) ≤ fs.sb.maxIndex)
          (made : makeDataBlocks i now fuel fs (numBlocks - 1) = .ok (fs', c)) :
          0 < numBlocks ∧ c ≠ -1 ∧ (fs'.sb.sbFirstEmptyDb : Int) ≤ fs'.sb.maxIndex := by
        obtain ⟨rfl, n, positive, start, inode, -, -, rfl⟩ := ih range made
        exact ⟨by omega, by omega, range⟩
      by_cases some : 0 < numBlocks
      · exact createRepeatedly_never some
          (fun fs fs' c range made => (once fs fs' c range made).2) range h
      · cases fuel with
        | zero => cases h
        | succ fuel =>
          rw [createRepeatedly, bind_eq_ok] at h
          obtain ⟨⟨made, created⟩, first, -⟩ := h
          exact some (once _ _ _ range first).1

end Allocate

end ExtentFs
