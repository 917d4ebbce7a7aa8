import ExtentFs.Effects.Allocate
import ExtentFs.Model.Driver

namespace ExtentFs

open Base Base.Bytes

theorem clearBytes_ok {fs fs' : FsCtx} {addr length : Int} :
    fs.clearBytes addr length = .ok fs' ↔ (0 ≤ addr ∧ 0 ≤ length ∧ addr + length ≤ fs.dataSize) ∧
      fs' = { fs with data := fs.data.fill addr.toNat length.toNat 0 } := by
  rw [FsCtx.clearBytes, guard_eq_ok, Except.ok.injEq]
  exact and_congr_right fun _ => eq_comm

theorem storeBytes_ok {fs fs' : FsCtx} {addr : Int} {bytes : List Byte} :
    fs.storeBytes addr bytes = .ok fs' ↔ (0 ≤ addr ∧ addr + bytes.length ≤ fs.dataSize) ∧
      fs' = { fs with data := fs.data.store addr.toNat bytes } := by
  rw [FsCtx.storeBytes, guard_eq_ok, Except.ok.injEq]
  exact and_congr_right fun _ => eq_comm

theorem blockOffset_ok {j off : Int} : FsCtx.blockOffset j = .ok off ↔
    (-2 ^ 31 ≤ 4096 * j ∧ 4096 * j < 2 ^ 31) ∧ off = 4096 * j := intArith_ok

def A1fsInode.resize (inode : A1fsInode) (k : Nat) (bytes : Int) : A1fsInode :=
  inode.setExtent k { inode.iExtent k with size := (inode.iExtent k).size + bytes }

theorem A1fsInode.SameExtents.resize {inode : A1fsInode} {k : Nat} {bytes : Int} :
    inode.SameExtents (inode.resize k bytes) := setExtent_size

theorem A1fsInode.resize_resize {inode : A1fsInode} {k : Nat} {a b : Int} :
    (inode.resize k a).resize k b = inode.resize k (a + b) := by
  have extents : (fun j => if j = k then { (inode.iExtent k) with
      size := (inode.iExtent k).size + a + b } else if j = k then
        { (inode.iExtent k) with size := (inode.iExtent k).size + a } else inode.iExtent j) =
      fun j => if j = k then { (inode.iExtent k) with
        size := (inode.iExtent k).size + (a + b) } else inode.iExtent j := by
    funext j
    split
    · rw [Int.add_assoc]
    · rfl
  simp only [A1fsInode.resize, A1fsInode.setExtent, if_true, extents]

section Zero

variable {fs fs' : FsCtx} {i k : Nat} {leftover : Int}

theorem zeroOutBlocks_touches {length j : Nat} {left left' : Int}
    (h : zeroOutBlocks i k leftover length fs j left = .ok (fs', left')) : fs.Touches fs' i := by
  induction length generalizing fs j left with
  | zero =>
    cases h
    exact .refl
  | succ length ih =>
    rw [zeroOutBlocks, bind_eq_ok] at h
    obtain ⟨addr, -, h⟩ := h
    split at h
    · simp only [bind_eq_ok, clearBytes_ok] at h
      obtain ⟨_, ⟨-, rfl⟩, h⟩ := h
      cases h
      exact FsCtx.Touches.setData.trans (.setInode .setExtent_size)
    · simp only [bind_eq_ok, clearBytes_ok] at h
      obtain ⟨_, ⟨-, rfl⟩, h⟩ := h
      exact (FsCtx.Touches.setData.trans (.setInode .setExtent_size)).trans (ih h)

theorem zeroExtents_touches {firstExtent firstDb : Nat} {l : List Nat} {left : Int}
    (h : zeroExtents i leftover firstExtent firstDb l fs left = .ok fs') : fs.Touches fs' i := by
  induction l generalizing fs left with
  | nil =>
    cases h
    exact .refl
  | cons k l ih =>
    rw [zeroExtents] at h
    split at h
    · cases h
      exact .refl
    · simp only [bind_eq_ok] at h
      obtain ⟨extent, -, ⟨zeroed, left'⟩, zero, h⟩ := h
      exact ((zeroOutBlocks_touches zero).trans (.setInode .setExtent_size)).trans (ih h)

theorem touch_touches {now : Timespec} : fs.Touches (touch fs i now) i :=
  .setInode ⟨rfl, rfl, rfl, fun _ => rfl, fun _ => rfl⟩

/-- How many bytes the zeroing of `n` blocks covers when the last one is partial. -/
def zeroedBytes (n : Nat) (leftover : Int) : Nat :=
  4096 * (n - 1) + if leftover ≠ 0 then leftover.toNat else 4096

/-- What the zeroing of `n` blocks adds to the size of their extent: full blocks are
    subtracted. -/
def zeroedSize (n : Nat) (leftover : Int) : Int :=
  if leftover ≠ 0 then leftover - 4096 * (n - 1 : Nat) else -4096 * n

theorem fill_fill {m : Bytes} {a n k : Nat} {v : Byte} :
    (m.fill a n v).fill (a + n) k v = m.fill a (n + k) v := by
  funext x
  simp only [fill]
  split
  · rw [if_pos (by omega)]
  · split
    · rw [if_pos (by omega)]
    · rw [if_neg (by omega)]

/-- One call that zeroes as many blocks as it visits. -/
theorem zeroOutBlocks_exact {n j : Nat} {left : Int} (some : 0 < n)
    (h : zeroOutBlocks i k leftover n fs j n = .ok (fs', left)) :
    left = 0 ∧ 0 ≤ leftover ∧ 4096 * (j + (n - 1)) < 2 ^ 31 ∧
      4096 * j + zeroedBytes n leftover ≤ fs.dataSize ∧
      fs' = { fs.setInode i ((fs.itable i).resize k (zeroedSize n leftover)) with
        data := fs.data.fill (4096 * j) (zeroedBytes n leftover) 0 } := by
  induction n generalizing fs j with
  | zero => omega
  | succ n ih =>
    rw [zeroOutBlocks, bind_eq_ok] at h
    obtain ⟨addr, offset, h⟩ := h
    obtain ⟨bounds, rfl⟩ := blockOffset_ok.mp offset
    have addrEq : (4096 * (j : Int)).toNat = 4096 * j := by omega
    split at h
    · rename_i last
      simp only [bind_eq_ok, clearBytes_ok] at h
      obtain ⟨_, ⟨inside, rfl⟩, h⟩ := h
      cases h
      obtain rfl : n = 0 := by omega
      have bytes : zeroedBytes (0 + 1) leftover = leftover.toNat := by
        simp [zeroedBytes, last.2]
      have size : zeroedSize (0 + 1) leftover = leftover := by
        simp [zeroedSize, last.2]
      refine ⟨by omega, inside.2.1, by omega, by omega, ?_⟩
      rw [bytes, size, addrEq]
      rfl
    · rename_i more
      simp only [bind_eq_ok, clearBytes_ok] at h
      obtain ⟨_, ⟨inside, rfl⟩, h⟩ := h
      rw [addrEq] at h
      change zeroOutBlocks i k leftover n
        { fs.setInode i ((fs.itable i).resize k (-4096)) with
          data := fs.data.fill (4096 * j) 4096 0 } (j + 1) _ = _ at h
      by_cases done : n = 0
      · subst done
        cases h
        have full : leftover = 0 := by
          by_contra partial_
          exact more ⟨rfl, partial_⟩
        subst full
        refine ⟨by omega, le_refl _, by omega, ?_, ?_⟩
        · simp only [zeroedBytes, ne_eq, not_true_eq_false, if_false]
          omega
        · rfl
      · have next : ((n + 1 : Nat) : Int) - 1 = n := by omega
        rw [next] at h
        obtain ⟨zero, sign, fits, room, rfl⟩ := ih (by omega) h
        have bytes : zeroedBytes (n + 1) leftover = 4096 + zeroedBytes n leftover := by
          simp only [zeroedBytes]
          omega
        have size : zeroedSize (n + 1) leftover = -4096 + zeroedSize n leftover := by
          simp only [zeroedSize]
          split <;> omega
        have room' : 4096 * (j + 1) + zeroedBytes n leftover ≤ fs.dataSize := room
        refine ⟨zero, sign, by omega, by omega, ?_⟩
        rw [bytes, size, ← A1fsInode.resize_resize, ← fill_fill, ← Nat.mul_succ]
        simp only [FsCtx.setInode, FsCtx.mk.injEq, true_and, and_true, if_true]
        funext l
        split <;> rfl

theorem zeroOutBlocks_returns {n j : Nat} (some : 0 < n) (sign : 0 ≤ leftover)
    (fits : 4096 * (j + (n - 1)) < 2 ^ 31) (room : 4096 * j + zeroedBytes n leftover ≤ fs.dataSize) :
    ∃ fs', zeroOutBlocks i k leftover n fs j n = .ok (fs', 0) := by
  induction n generalizing fs j with
  | zero => omega
  | succ n ih =>
    have offset : FsCtx.blockOffset j = .ok (4096 * (j : Int)) :=
      blockOffset_ok.mpr ⟨⟨by omega, by omega⟩, rfl⟩
    rw [zeroOutBlocks, offset, ok_bind]
    by_cases last : ((n + 1 : Nat) : Int) = 1 ∧ leftover ≠ 0
    · obtain rfl : n = 0 := by omega
      have bytes : zeroedBytes (0 + 1) leftover = leftover.toNat := by
        simp [zeroedBytes, last.2]
      have clear : fs.clearBytes (4096 * (j : Int)) leftover = .ok _ :=
        clearBytes_ok.mpr ⟨⟨by omega, sign, by omega⟩, rfl⟩
      rw [if_pos last, clear]
      exact ⟨_, rfl⟩
    · have whole : 4096 ≤ zeroedBytes (n + 1) leftover := by
        rw [zeroedBytes]
        split <;> omega
      have clear : fs.clearBytes (4096 * (j : Int)) 4096 = .ok _ :=
        clearBytes_ok.mpr ⟨⟨by omega, by omega, by omega⟩, rfl⟩
      rw [if_neg last, clear, ok_bind]
      by_cases done : n = 0
      · subst done
        exact ⟨_, rfl⟩
      · have next : ((n + 1 : Nat) : Int) - 1 = n := by omega
        have bytes : zeroedBytes (n + 1) leftover = 4096 + zeroedBytes n leftover := by
          simp only [zeroedBytes]
          omega
        rw [next]
        apply ih
        · omega
        · omega
        · show 4096 * (j + 1) + zeroedBytes n leftover ≤ fs.dataSize
          omega

/-- A partial last block ends the loop before the extent does. -/
theorem zeroOutBlocks_stop {n length j : Nat} (some : 0 < n) (partial_ : leftover ≠ 0) (few : n ≤ length) :
    zeroOutBlocks i k leftover length fs j n = zeroOutBlocks i k leftover n fs j n := by
  induction n generalizing length fs j with
  | zero => omega
  | succ n ih =>
    obtain ⟨m, rfl⟩ : ∃ m, length = m + 1 := ⟨length - 1, by omega⟩
    have next : ((n + 1 : Nat) : Int) - 1 = n := by omega
    rw [zeroOutBlocks, zeroOutBlocks, next]
    congr 1
    funext addr
    by_cases last : n = 0
    · subst last
      have stop : ((0 + 1 : Nat) : Int) = 1 ∧ leftover ≠ 0 := ⟨rfl, partial_⟩
      dsimp only
      rw [if_pos stop, if_pos stop]
    · have more : ¬ (((n + 1 : Nat) : Int) = 1 ∧ leftover ≠ 0) := by omega
      dsimp only
      rw [if_neg more, if_neg more]
      congr 1
      funext cleared
      exact ih (by omega) (by omega)

/-- With no partial block, or more blocks to zero than are left of the extent's length, all of that
    length is zeroed. -/
theorem zeroOutBlocks_whole {length j : Nat} {left : Int} (whole : leftover = 0 ∨ (length : Int) < left) :
    zeroOutBlocks i k leftover length fs j left =
      zeroOutBlocks i k 0 length fs j length >>= fun zeroed => .ok (zeroed.1, left - length) := by
  induction length generalizing fs j left with
  | zero =>
    rw [zeroOutBlocks, zeroOutBlocks, ok_bind, Nat.cast_zero, Int.sub_zero]
  | succ n ih =>
    have next : ((n + 1 : Nat) : Int) - 1 = n := by omega
    have rest : left - ((n + 1 : Nat) : Int) = left - 1 - n := by omega
    rw [zeroOutBlocks, zeroOutBlocks, next, rest, bind_assoc]
    congr 1
    funext addr
    have more : ¬ (left = 1 ∧ leftover ≠ 0) := by omega
    have none : ¬ (((n + 1 : Nat) : Int) = 1 ∧ (0 : Int) ≠ 0) := by omega
    dsimp only
    rw [if_neg more, if_neg none, bind_assoc]
    congr 1
    funext cleared
    exact ih (by omega)

end Zero

section Helper

variable {fs fs' : FsCtx} {i fuel : Nat} {size r : Int} {now : Timespec}

theorem truncateHelper_ok (h : truncateHelper fuel fs i size now = .ok (fs', r))
    (range : (fs.sb.sbFirstEmptyDb : Int) ≤ fs.sb.maxIndex) :
    r = 0 ∧ ∃ (n : Nat) (leftover : Int) (start : Nat) (inode : A1fsInode),
      blockRequest size = .ok ((n : Int), leftover) ∧ Growth fs i n now start inode ∧
      (∀ j ∈ List.range' start n, j / 8 < fs.blockBits.length) ∧
      ((fs.setInode i inode).flipBlocks (List.range' start n) 1).Touches fs' i := by
  rw [truncateHelper, bind_eq_ok] at h
  obtain ⟨⟨blocks, leftover⟩, request, h⟩ := h
  rw [bind_eq_ok] at h
  obtain ⟨⟨made, count⟩, make, h⟩ := h
  obtain ⟨rfl, n, rfl, start, inode, growth, inside, rfl⟩ := makeDataBlocks_ok range make
  simp only [ne_eq, not_true_eq_false, if_false, bind_eq_ok] at h
  obtain ⟨⟨firstExtent, firstDb⟩, -, zeroed, zero, h⟩ := h
  cases h
  exact ⟨rfl, n, leftover, start, inode, request, growth, inside,
    (touch_touches.trans (zeroExtents_touches zero)).trans touch_touches⟩

theorem touch_appended (inode : A1fsInode) (start n : Nat) (a b : Int) (now : Timespec) {slot : Nat}
    (at_ : slot = (inode.lastUsedExtent + 1).toNat) :
    { ({ inode.appendExtent ⟨start, n, a⟩ now with iMtime := now }.resize slot b) with
      iMtime := now } = inode.appendExtent ⟨start, n, a + b⟩ now := by
  subst at_
  simp only [A1fsInode.appendExtent, A1fsInode.resize, A1fsInode.setExtent, if_true]
  congr 1
  funext j
  split <;> rfl

/-- After blocks were found for an extent of their own `truncate_helper` zeroes them, one call of
    `zero_out_blocks` for the new extent. -/
theorem truncateHelper_zeroes {n start m : Nat} {leftover : Int} {placed : A1fsInode}
    (request : blockRequest size = .ok ((n : Int), leftover)) (some : 0 < n)
    (slot : m = ((fs.itable i).lastUsedExtent + 1).toNat)
    (shape : placed = (fs.itable i).appendExtent ⟨start, n, 0⟩ now)
    (low : -1 ≤ (fs.itable i).lastUsedExtent) (room : (fs.itable i).lastUsedExtent < 11)
    (make : makeDataBlocks i now fuel fs n =
      .ok ((fs.setInode i placed).flipBlocks (List.range' start n) 1, (n : Int))) :
    truncateHelper fuel fs i size now =
      (zeroOutBlocks i m leftover n ((fs.setInode i placed).flipBlocks (List.range' start n) 1) start n >>=
        fun r => .ok (touch (r.1.setInode i ((r.1.itable i).resize m leftover)) i now, 0)) := by
  have bound : m < 12 := by omega
  have last : placed.iExtent m = ⟨start, n, 0⟩ := by
    rw [shape, slot]
    exact A1fsInode.setExtent_self
  have slots : (placed.lastUsedExtent + 1).toNat = m + 1 := by
    rw [shape]
    show ((fs.itable i).lastUsedExtent + 1 + 1).toNat = m + 1
    omega
  have timed : { placed with iMtime := now } = placed := by rw [shape]; rfl
  have touched : touch ((fs.setInode i placed).flipBlocks (List.range' start n) 1) i now =
      (fs.setInode i placed).flipBlocks (List.range' start n) 1 := by
    rw [touch, FsCtx.setInode_flipBlocks, FsCtx.flipBlocks_itable, FsCtx.setInode_self, timed]
  have extent : placed.extentAt m = .ok ⟨start, n, 0⟩ := by
    rw [A1fsInode.extentAt, if_pos bound, last]
  have search : firstToZero placed (m + 1) n = .ok (m, start) := by
    have back : ((start : Int) + n - n).toNat = start := by omega
    rw [firstToZero, extent, ok_bind]
    simp only [ge_iff_le, le_refl, if_true, back]
    rfl
  have one : m + 1 - m = 1 := by omega
  have positive : ¬ (n : Int) = 0 := by omega
  rw [truncateHelper, request, ok_bind]
  dsimp only
  rw [make, ok_bind]
  simp only [ne_eq, not_true_eq_false, if_false, touched, FsCtx.flipBlocks_itable, FsCtx.setInode_self, slots,
    search, ok_bind, one, List.range'_one, zeroExtents, positive, extent, if_true, bind_assoc]
  rfl

theorem truncateHelper_placed {n start : Nat} {leftover left : Int} {filled : FsCtx}
    (request : blockRequest size = .ok ((n : Int), leftover)) (some : 0 < n)
    (low : -1 ≤ (fs.itable i).lastUsedExtent) (room : (fs.itable i).lastUsedExtent < 11)
    (make : makeDataBlocks i now fuel fs n =
      .ok ((fs.setInode i ((fs.itable i).appendExtent ⟨start, n, 0⟩ now)).flipBlocks
        (List.range' start n) 1, (n : Int)))
    (zero : zeroOutBlocks i ((fs.itable i).lastUsedExtent + 1).toNat leftover n
      ((fs.setInode i ((fs.itable i).appendExtent ⟨start, n, 0⟩ now)).flipBlocks (List.range' start n) 1)
        start n = .ok (filled, left)) :
    truncateHelper fuel fs i size now = .ok
      ({ (fs.setInode i ((fs.itable i).appendExtent
          ⟨start, n, zeroedSize n leftover + leftover⟩ now)).flipBlocks (List.range' start n) 1 with
        data := fs.data.fill (4096 * start) (zeroedBytes n leftover) 0 }, 0) := by
  obtain ⟨-, -, -, -, rfl⟩ := zeroOutBlocks_exact some zero
  rw [truncateHelper_zeroes request some rfl rfl low room make, zero, ok_bind, Except.ok.injEq, Prod.mk.injEq]
  refine ⟨?_, rfl⟩
  have final := touch_appended (fs.itable i) start n 0 (zeroedSize n leftover + leftover) now rfl
  rw [Int.zero_add, ← A1fsInode.resize_resize] at final
  rw [← final]
  simp only [touch, FsCtx.setInode, FsCtx.flipBlocks, if_true, FsCtx.mk.injEq, true_and, and_true]
  funext j
  split <;> rfl

theorem truncateHelper_append {n : Nat} {leftover : Int}
    (h : truncateHelper fuel fs i size now = .ok (fs', r))
    (range : (fs.sb.sbFirstEmptyDb : Int) ≤ fs.sb.maxIndex)
    (request : blockRequest size = .ok ((n : Int), leftover)) (some : 0 < n)
    (fresh : fs.attaches i n = false) :
    r = 0 ∧ ∃ start : Nat, getAvailableBit fs.sb fs.blockBits .data n = .ok (start : Int) ∧
      -1 ≤ (fs.itable i).lastUsedExtent ∧ (fs.itable i).lastUsedExtent < 11 ∧
      (∀ j ∈ List.range' start n, j / 8 < fs.blockBits.length) ∧ 0 ≤ leftover ∧
      4096 * (start + (n - 1)) < 2 ^ 31 ∧
      4096 * start + zeroedBytes n leftover ≤ fs.dataSize ∧
      fs' = { (fs.setInode i ((fs.itable i).appendExtent
          ⟨start, n, zeroedSize n leftover + leftover⟩ now)).flipBlocks (List.range' start n) 1 with
        data := fs.data.fill (4096 * start) (zeroedBytes n leftover) 0 } := by
  have asked := h
  rw [truncateHelper, request, ok_bind, bind_eq_ok] at asked
  obtain ⟨⟨made, count⟩, make, asked⟩ := asked
  obtain ⟨rfl, n', same, start, inode, growth, inside, rfl⟩ := makeDataBlocks_ok range make
  obtain rfl : n = n' := by omega
  cases growth with
  | attach _ taken => rw [fresh] at taken; cases taken
  | @append start found fresh low room =>
    have returned := h
    rw [truncateHelper_zeroes request some rfl rfl low room make, bind_eq_ok] at returned
    obtain ⟨⟨filled, left⟩, zero, -⟩ := returned
    rw [truncateHelper_placed request some low room make zero] at h
    cases h
    obtain ⟨-, sign, fits, room', -⟩ := zeroOutBlocks_exact some zero
    exact ⟨rfl, start, found, low, room, inside, sign, fits, room', rfl⟩

end Helper

def helperSize (inode : A1fsInode) (size : Int) : Option Int :=
  let curSize := toInt inode.size
  let bytesTilFull := 4096 - (curSize - curSize.tdiv 4096 * 4096)
  if curSize = size then none
  else if inode.lastUsedExtent = -1 then some size
  else if curSize < size then
    if size < bytesTilFull then some size
    else
      let remaining := toInt (size - inode.size) - bytesTilFull
      if size > bytesTilFull ∧ remaining ≠ 0 then some remaining else none
  else none

def requestedBlocks (bytes : Int) : Nat :=
  match blockRequest bytes with
  | .ok (n, _) => n.toNat
  | .error _ => 0

def growthBlocks (inode : A1fsInode) (size : Int) : Nat :=
  (helperSize inode size).elim 0 requestedBlocks

def Shrinks (inode : A1fsInode) (size : Int) : Prop :=
  inode.lastUsedExtent ≠ -1 ∧ size < toInt inode.size

instance (inode : A1fsInode) (size : Int) : Decidable (Shrinks inode size) :=
  inferInstanceAs (Decidable (_ ∧ _))

/-- What a loop visits that counts down from `n` to 0: everything when `n` is negative. -/
def takeDown (n : Int) (l : List Nat) : List Nat := if n < 0 then l else l.take n.toNat

def releasedBlocks (inode : A1fsInode) (size : Int) : List Nat :=
  takeDown (sizeBlocks (toInt inode.size) - sizeBlocks size) inode.blocks.reverse

def shrunkInode (inode : A1fsInode) (size : Int) : A1fsInode :=
  let inode := if size = 0 then { inode with lastUsedExtent := -1, lastUsedIndirect := -1 } else inode
  { inode with size := toUlong size }

theorem shrunk_unused {inode : A1fsInode} : (shrunkInode inode 0).lastUsedExtent = -1 := by
  rw [shrunkInode, if_pos rfl]

theorem shrunk_sameExtents {inode : A1fsInode} {size : Int} (some : size ≠ 0) :
    inode.SameExtents (shrunkInode inode size) := by
  rw [shrunkInode, if_neg some]
  exact ⟨rfl, rfl, rfl, fun _ => rfl, fun _ => rfl⟩

/-- What truncating the file of inode `i` does to everything but bytes and sizes. -/
inductive Resized (fs : FsCtx) (i : Nat) (size : Int) (now : Timespec) (fs' : FsCtx) : Prop
  | touched (touches : fs.Touches fs' i)
  | grown {n start : Nat} {inode : A1fsInode} (blocks : growthBlocks (fs.itable i) size = n)
      (growth : Growth fs i n now start inode)
      (bits : ∀ b ∈ List.range' start n, b / 8 < fs.blockBits.length)
      (inside : fs.attaches i n = false → ∀ b ∈ List.range' start n, 4096 * b < fs.dataSize)
      (touches : ((fs.setInode i inode).flipBlocks (List.range' start n) 1).Touches fs' i)
  | shrunk (shrinks : Shrinks (fs.itable i) size)
      (bits : ∀ b ∈ releasedBlocks (fs.itable i) size, b / 8 < fs.blockBits.length)
      (touches : ((fs.setInode i (shrunkInode (fs.itable i) size)).flipBlocks
        (releasedBlocks (fs.itable i) size) 0).Touches fs' i)

section Release

variable {n n' : Int} {l k : List Nat} {sb sb' : A1fsSuperblock} {bits bits' : Bitmap}

@[simp] theorem takeDown_nil : takeDown n [] = [] := by simp [takeDown]

@[simp] theorem takeDown_zero : takeDown 0 l = [] := by simp [takeDown]

theorem takeDown_cons {b : Nat} (more : n ≠ 0) : takeDown n (b :: l) = b :: takeDown (n - 1) l := by
  by_cases negative : n < 0
  · rw [takeDown, if_pos negative, takeDown, if_pos (by omega)]
  · obtain ⟨m, rfl⟩ : ∃ m : Nat, n = m + 1 := ⟨n.toNat - 1, by omega⟩
    have first : ((m : Int) + 1).toNat = m + 1 := by omega
    have rest : ((m : Int) + 1 - 1).toNat = m := by omega
    rw [takeDown, if_neg negative, takeDown, if_neg (by omega), first, rest, List.take_succ_cons]

theorem takeDown_append : takeDown n (l ++ k) = takeDown n l ++ takeDown (n - (takeDown n l).length) k := by
  induction l generalizing n with
  | nil => simp
  | cons b l ih =>
    by_cases done : n = 0
    · subst done
      simp
    · rw [List.cons_append, takeDown_cons done, takeDown_cons done, ih, List.length_cons,
        List.cons_append]
      congr 3
      omega

theorem takeDown_subset : takeDown n l ⊆ l := by
  rw [takeDown]
  split
  · exact List.Subset.refl l
  · exact List.take_subset _ _

theorem releaseBlocks_ok (h : releaseBlocks sb bits l n = .ok (sb', bits', n')) :
    (∀ b ∈ takeDown n l, b / 8 < bits.length) ∧ bits' = bits.flipAll (takeDown n l) ∧
      sb' = { sb with
        sbFreeBlocksCount := countFlips 0 sb.sbFreeBlocksCount (takeDown n l).length } ∧
      n' = n - (takeDown n l).length := by
  induction l generalizing sb bits n with
  | nil =>
    cases h
    simp [countFlips]
  | cons b l ih =>
    rw [releaseBlocks] at h
    split at h
    · rename_i done
      subst done
      cases h
      simp [countFlips]
    · rename_i more
      simp only [bind_eq_ok] at h
      obtain ⟨⟨sb1, bits1⟩, set, h⟩ := h
      obtain ⟨inside, rfl, rfl⟩ := setBits_data_ok.mp set
      obtain ⟨insideRest, rfl, rfl, rfl⟩ := ih h
      rw [takeDown_cons more]
      refine ⟨?_, rfl, ?_, ?_⟩
      · intro c member
        rcases List.mem_cons.mp member with rfl | member
        · exact inside c (by simp)
        · exact insideRest c member
      · simp only [countFlips, if_true, List.length_cons, A1fsSuperblock.mk.injEq, true_and, and_true]
        omega
      · rw [List.length_cons]
        omega

theorem releaseExtents_ok {inode : A1fsInode} (h : releaseExtents inode sb bits l n = .ok (sb', bits')) :
    ∃ released, released = takeDown n (l.flatMap fun k => (inode.iExtent k).blocks.reverse) ∧
    (∀ b ∈ released, b / 8 < bits.length) ∧ bits' = bits.flipAll released ∧
      sb' = { sb with
        sbFreeBlocksCount := countFlips 0 sb.sbFreeBlocksCount released.length } := by
  induction l generalizing sb bits n with
  | nil =>
    cases h
    simp [countFlips]
  | cons k l ih =>
    rw [releaseExtents] at h
    split at h
    · rename_i done
      subst done
      cases h
      simp [countFlips]
    · simp only [bind_eq_ok, A1fsInode.extentAt, guard_eq_ok] at h
      obtain ⟨extent, ⟨-, read⟩, ⟨sb1, bits1, n1⟩, release, h⟩ := h
      cases read
      change releaseBlocks sb bits (inode.iExtent k).blocks.reverse n = _ at release
      obtain ⟨inside, rfl, rfl, rfl⟩ := releaseBlocks_ok release
      obtain ⟨rest, restEq, insideRest, rfl, rfl⟩ := ih h
      simp only [Bitmap.flipAll_length] at insideRest
      rw [List.flatMap_cons, takeDown_append, ← restEq]
      refine ⟨_, rfl, ?_, ?_, ?_⟩
      · intro b member
        rcases List.mem_append.mp member with member | member
        · exact inside b member
        · exact insideRest b member
      · rw [Bitmap.flipAll_append]
      · simp only [countFlips, if_true, List.length_append, A1fsSuperblock.mk.injEq, true_and,
          and_true]
        omega

theorem shrinkFile_ok {fs fs' : FsCtx} {i : Nat} {size r : Int}
    (h : shrinkFile fs i size = .ok (fs', r)) :
    r = 0 ∧ (∀ b ∈ releasedBlocks (fs.itable i) size, b / 8 < fs.blockBits.length) ∧
      fs' = (fs.setInode i (shrunkInode (fs.itable i) size)).flipBlocks
        (releasedBlocks (fs.itable i) size) 0 := by
  rw [shrinkFile, bind_eq_ok] at h
  obtain ⟨count, arith, h⟩ := h
  have difference := (intArith_ok.mp arith).2
  rw [bind_eq_ok] at h
  obtain ⟨⟨sb, bits⟩, release, h⟩ := h
  cases h
  have order : (fs.itable i).usedSlots.reverse.flatMap
      (fun k => ((fs.itable i).iExtent k).blocks.reverse) = (fs.itable i).blocks.reverse := by
    rw [A1fsInode.blocks, List.reverse_flatMap]
    rfl
  obtain ⟨released, taken, inside, rfl, rfl⟩ := releaseExtents_ok release
  rw [order, difference] at taken
  rw [releasedBlocks, ← taken]
  exact ⟨rfl, inside, rfl⟩

end Release

section Resize

variable {fs fs' fs'' : FsCtx} {i fuel : Nat} {size r : Int} {env : Env}

theorem Resized.touch (resized : Resized fs i size env.now fs') (touches : fs'.Touches fs'' i) :
    Resized fs i size env.now fs'' := by
  cases resized with
  | touched before => exact .touched (before.trans touches)
  | grown blocks growth bits inside before =>
    exact .grown blocks growth bits inside (before.trans touches)
  | shrunk shrinks bits before => exact .shrunk shrinks bits (before.trans touches)

theorem Growth.ofData {data : Bytes} {n start : Nat} {inode : A1fsInode} {now : Timespec}
    (growth : Growth { fs with data := data } i n now start inode) : Growth fs i n now start inode := by
  cases growth with
  | append found fresh low room => exact .append found fresh low room
  | attach found taken low room => exact .attach found taken low room

theorem truncateHelper_resized (data : Bytes)
    (range : (fs.sb.sbFirstEmptyDb : Int) ≤ fs.sb.maxIndex) {bytes : Int}
    (asked : helperSize (fs.itable i) size = some bytes)
    (h : truncateHelper fuel { fs with data := data } i bytes env.now = .ok (fs', r)) :
    r = 0 ∧ ∀ fs'', fs'.Touches fs'' i → Resized fs i size env.now fs'' := by
  obtain ⟨rfl, n, leftover, start, inode, request, growth, bits, touches⟩ :=
    truncateHelper_ok h range
  have blocks : growthBlocks (fs.itable i) size = n := by
    rw [growthBlocks, asked, Option.elim_some, requestedBlocks, request]
    exact Int.toNat_natCast n
  refine ⟨rfl, fun fs'' after => .grown blocks growth.ofData bits ?_ ?_⟩
  · intro fresh b member
    by_cases some : 0 < n
    · obtain ⟨-, start', found, -, -, -, sign, -, room, -⟩ :=
        truncateHelper_append h range request some fresh
      cases growth.ofData with
      | attach _ taken => rw [fresh] at taken; cases taken
      | append found' =>
        rw [found'] at found
        cases found
        have zeroed : 4096 * (n - 1) < zeroedBytes n leftover := by
          rw [zeroedBytes]
          split <;> omega
        rw [List.mem_range'_1] at member
        have room' : 4096 * start + zeroedBytes n leftover ≤ fs.dataSize := room
        omega
    · obtain rfl : n = 0 := by omega
      simp at member
  · exact (FsCtx.Touches.trans (i := i) ⟨touches.size, touches.sb, touches.inodeBits,
      touches.blockBits, touches.others, touches.inode⟩ after)

theorem grow_touches {bytes : Int} : fs.Touches (grow fs i bytes) i :=
  .setInode ⟨rfl, rfl, rfl, fun _ => rfl, fun _ => rfl⟩

theorem inodeAt_ok {j : Int} {inode : A1fsInode} : fs.inodeAt j = .ok inode ↔
    (0 ≤ j ∧ j < fs.sb.sbInodesCount) ∧ inode = fs.itable j.toNat := by
  rw [FsCtx.inodeAt, guard_eq_ok, Except.ok.injEq]
  exact and_congr_right fun _ => eq_comm

theorem inodeAt_bind_ok {α : Type} {n : Int} {f : A1fsInode → Checked α} {a : α} :
    (fs.inodeAt n >>= f) = .ok a ↔
      ∃ i : Nat, n = i ∧ (i : Int) < fs.sb.sbInodesCount ∧ f (fs.itable i) = .ok a := by
  rw [bind_eq_ok]
  constructor
  · rintro ⟨inode, read, result⟩
    obtain ⟨inside, rfl⟩ := inodeAt_ok.mp read
    exact ⟨n.toNat, by omega, by omega, result⟩
  · rintro ⟨i, rfl, inside, result⟩
    exact ⟨_, inodeAt_ok.mpr ⟨⟨by omega, inside⟩, rfl⟩, result⟩

/-- The bytes of a file in its last block, in the arithmetic of `a1fs_truncate`. -/
def A1fsInode.leftover (inode : A1fsInode) : Int :=
  toInt inode.size - (toInt inode.size).tdiv 4096 * 4096

/-- The ways in which case 2 of `a1fs_truncate` returns. -/
inductive Extends (env : Env) (fuel : Nat) (fs : FsCtx) (i : Nat) (size : Int) : FsCtx → Int → Prop
  | short {made : FsCtx} (below : size < 4096 - (fs.itable i).leftover)
      (help : truncateHelper fuel fs i size env.now = .ok (made, 0)) :
      Extends env fuel fs i size (grow made i (size - toInt (fs.itable i).size)) 0
  | long {made : FsCtx} {last addr more : Int} {data : Bytes}
      (above : 4096 - (fs.itable i).leftover < size) (index : lastDbIndex (fs.itable i) = .ok last)
      (offset : FsCtx.blockOffset last = .ok addr)
      (clear : fs.clearBytes (addr + (fs.itable i).leftover) (4096 - (fs.itable i).leftover) =
        .ok { fs with data := data })
      (remaining : more = toInt (size - (fs.itable i).size) - (4096 - (fs.itable i).leftover))
      (nonzero : more ≠ 0)
      (help : truncateHelper fuel { fs with data := data } i more env.now = .ok (made, 0)) :
      Extends env fuel fs i size (grow made i (toInt (size - (made.itable i).size))) 0
  | filled {last addr : Int} {data : Bytes}
      (above : 4096 - (fs.itable i).leftover < size) (index : lastDbIndex (fs.itable i) = .ok last)
      (offset : FsCtx.blockOffset last = .ok addr)
      (clear : fs.clearBytes (addr + (fs.itable i).leftover) (4096 - (fs.itable i).leftover) =
        .ok { fs with data := data })
      (done : toInt (size - (fs.itable i).size) - (4096 - (fs.itable i).leftover) = 0) :
      Extends env fuel fs i size
        (grow { fs with data := data } i (toInt (size - (fs.itable i).size))) 0
  | stuck (even : size = 4096 - (fs.itable i).leftover) : Extends env fuel fs i size fs (-1)

theorem extendFile_cases (range : (fs.sb.sbFirstEmptyDb : Int) ≤ fs.sb.maxIndex)
    (h : extendFile env fuel fs i size = .ok (fs', r)) : Extends env fuel fs i size fs' r := by
  unfold extendFile at h
  extract_lets inode curSize numBlocks leftover til at h
  split at h
  · rename_i below
    rw [bind_eq_ok] at h
    obtain ⟨⟨made, helped⟩, help, h⟩ := h
    obtain ⟨rfl, -⟩ := truncateHelper_ok help range
    cases h
    exact .short below help
  · rename_i notBelow
    split at h
    · rename_i above
      rw [bind_eq_ok] at h
      obtain ⟨last, index, h⟩ := h
      rw [bind_eq_ok] at h
      obtain ⟨addr, offset, h⟩ := h
      rw [bind_eq_ok] at h
      obtain ⟨cleared, clear, h⟩ := h
      obtain ⟨-, rfl⟩ := clearBytes_ok.mp clear
      rw [bind_eq_ok] at h
      obtain ⟨remaining, arith, h⟩ := h
      obtain ⟨-, rfl⟩ := intArith_ok.mp arith
      split at h
      · rename_i more
        rw [bind_eq_ok] at h
        obtain ⟨⟨made, helped⟩, help, h⟩ := h
        obtain ⟨rfl, -⟩ := truncateHelper_ok help range
        cases h
        exact .long above index offset clear rfl more help
      · rename_i none
        cases h
        exact .filled above index offset clear (not_not.mp none)
    · rename_i notAbove
      cases h
      exact .stuck (le_antisymm (not_lt.mp notAbove) (not_lt.mp notBelow))

theorem extendFile_resized (range : (fs.sb.sbFirstEmptyDb : Int) ≤ fs.sb.maxIndex)
    (some : (fs.itable i).lastUsedExtent ≠ -1) (larger : toInt (fs.itable i).size < size)
    (h : extendFile env fuel fs i size = .ok (fs', r)) : Resized fs i size env.now fs' := by
  have differ : ¬ toInt (fs.itable i).size = size := by omega
  have asked : helperSize (fs.itable i) size =
      if size < 4096 - (fs.itable i).leftover then Option.some size
      else if size > 4096 - (fs.itable i).leftover ∧
          toInt (size - (fs.itable i).size) - (4096 - (fs.itable i).leftover) ≠ 0 then
        Option.some (toInt (size - (fs.itable i).size) - (4096 - (fs.itable i).leftover)) else none := by
    rw [helperSize, if_neg differ, if_neg some, if_pos larger]
    rfl
  cases extendFile_cases range h with
  | short below help =>
    rw [if_pos below] at asked
    exact (truncateHelper_resized fs.data range asked help).2 _ grow_touches
  | long above index offset clear remaining nonzero help =>
    rw [← remaining, if_neg (by omega), if_pos ⟨above, nonzero⟩] at asked
    exact (truncateHelper_resized _ range asked help).2 _ grow_touches
  | filled above index offset clear done => exact .touched (FsCtx.Touches.setData.trans grow_touches)
  | stuck even => exact .touched .refl

/-- The ways in which `a1fs_truncate` returns. -/
inductive Truncates (env : Env) (fuel : Nat) (fs : FsCtx) (i : Nat) (size : Int) : FsCtx → Int → Prop
  | same (equal : toInt (fs.itable i).size = size) : Truncates env fuel fs i size fs 0
  | first {made : FsCtx} (differ : toInt (fs.itable i).size ≠ size)
      (unused : (fs.itable i).lastUsedExtent = -1)
      (help : truncateHelper fuel fs i size env.now = .ok (made, 0)) :
      Truncates env fuel fs i size (made.setInode i { made.itable i with size := toUlong size }) 0
  | larger {made : FsCtx} {r : Int} (used : (fs.itable i).lastUsedExtent ≠ -1)
      (larger : toInt (fs.itable i).size < size) (extend : extendFile env fuel fs i size = .ok (made, r)) :
      Truncates env fuel fs i size made r
  | smaller (used : (fs.itable i).lastUsedExtent ≠ -1) (smaller : size < toInt (fs.itable i).size)
      (bits : ∀ b ∈ releasedBlocks (fs.itable i) size, b / 8 < fs.blockBits.length) :
      Truncates env fuel fs i size ((fs.setInode i (shrunkInode (fs.itable i) size)).flipBlocks
        (releasedBlocks (fs.itable i) size) 0) 0

theorem a1fsTruncate_cases {path : CString} (range : (fs.sb.sbFirstEmptyDb : Int) ≤ fs.sb.maxIndex)
    (h : a1fsTruncate env fuel fs path size = .ok (fs', r)) :
    ∃ i : Nat, getInodeNum fs path 0 = .ok (i : Int) ∧ (i : Int) < fs.sb.sbInodesCount ∧
      Truncates env fuel fs i size fs' r := by
  unfold a1fsTruncate at h
  rw [bind_eq_ok] at h
  obtain ⟨curInode, walk, h⟩ := h
  obtain ⟨i, rfl, inside, h⟩ := inodeAt_bind_ok.mp h
  refine ⟨i, walk, inside, ?_⟩
  rw [Int.toNat_natCast] at h
  dsimp only at h
  split at h
  · rename_i equal
    cases h
    exact .same equal
  · rename_i differ
    split at h
    · rename_i unused
      rw [bind_eq_ok] at h
      obtain ⟨⟨made, helped⟩, help, h⟩ := h
      obtain ⟨rfl, -⟩ := truncateHelper_ok help range
      cases h
      exact .first differ unused help
    · rename_i used
      split at h
      · rename_i larger
        exact .larger used larger h
      · rename_i smaller
        obtain ⟨rfl, bits, rfl⟩ := shrinkFile_ok h
        exact .smaller used (by omega) bits

theorem a1fsTruncate_resized {path : CString} (range : (fs.sb.sbFirstEmptyDb : Int) ≤ fs.sb.maxIndex)
    (h : a1fsTruncate env fuel fs path size = .ok (fs', r)) :
    ∃ i : Nat, getInodeNum fs path 0 = .ok (i : Int) ∧ (i : Int) < fs.sb.sbInodesCount ∧
      Resized fs i size env.now fs' := by
  obtain ⟨i, walk, inside, truncates⟩ := a1fsTruncate_cases range h
  refine ⟨i, walk, inside, ?_⟩
  cases truncates with
  | same equal => exact .touched .refl
  | first differ unused help =>
    have asked : helperSize (fs.itable i) size = some size := by
      rw [helperSize, if_neg differ, if_pos unused]
    exact (truncateHelper_resized fs.data range asked help).2 _
      (.setInode ⟨rfl, rfl, rfl, fun _ => rfl, fun _ => rfl⟩)
  | larger used larger extend => exact extendFile_resized range used larger extend
  | smaller used smaller bits => exact .shrunk ⟨used, by omega⟩ bits .refl

end Resize

section Write

variable {fs fs' : FsCtx} {i fuel : Nat} {env : Env} {path : CString} {buf : List Byte} {offset : Nat}
  {r : Int}

theorem copyExtents_data {inode : A1fsInode} {slots cur : Nat} {first size written : Int}
    (h : copyExtents inode buf slots fs cur first size written = .ok fs') :
    ∃ data, fs' = { fs with data := data } := by
  induction slots generalizing fs cur first size written with
  | zero =>
    rw [copyExtents] at h
    split at h
    · cases h
    · cases h
      exact ⟨_, rfl⟩
  | succ slots ih =>
    rw [copyExtents] at h
    split at h
    · rw [bind_eq_ok] at h
      obtain ⟨extent, -, h⟩ := h
      rw [bind_eq_ok] at h
      obtain ⟨bytes, -, h⟩ := h
      dsimp only at h
      split at h
      · split at h
        · cases h
        · rw [bind_eq_ok] at h
          obtain ⟨stored, store, h⟩ := h
          obtain ⟨-, rfl⟩ := storeBytes_ok.mp store
          obtain ⟨data, rfl⟩ := ih h
          exact ⟨data, rfl⟩
      · obtain ⟨-, rfl⟩ := storeBytes_ok.mp h
        exact ⟨_, rfl⟩
    · cases h
      exact ⟨_, rfl⟩

theorem writeResized_data {t : Int}
    (h : (if t ≠ 0 then pure (fs, -eNoSpc)
      else do
        let (curExtent, found) ← findOffsetExtent (fs.itable i) (toInt offset) 12 0
        if found < 0 then pure (fs, -env.errno)
        else do
          let copied ← copyExtents (fs.itable i) buf (12 - curExtent) fs curExtent (toInt offset)
            (toInt buf.length) 0
          pure (copied, toInt buf.length) : Checked (FsCtx × Int)) = .ok (fs', r)) :
    ∃ data, fs' = { fs with data := data } := by
  split at h
  · cases h
    exact ⟨_, rfl⟩
  · rw [bind_eq_ok] at h
    obtain ⟨⟨cur, found⟩, -, h⟩ := h
    dsimp only at h
    split at h
    · cases h
      exact ⟨_, rfl⟩
    · rw [bind_eq_ok] at h
      obtain ⟨copied, copy, h⟩ := h
      cases h
      exact copyExtents_data copy

/-- `a1fs_write` truncates the file when the bytes reach beyond its end, then changes data only. -/
theorem a1fsWrite_split (h : a1fsWrite env fuel fs path buf offset = .ok (fs', r)) :
    (fs' = fs ∧ ∃ j < 0, getInodeNum fs path 0 = .ok j) ∨
      ∃ i : Nat, getInodeNum fs path 0 = .ok (i : Int) ∧ (i : Int) < fs.sb.sbInodesCount ∧
      ∃ fs1, (if offset + buf.length > (fs.itable i).size
        then ∃ t, a1fsTruncate env fuel fs path (buf.length + offset : Nat) = .ok (fs1, t)
        else fs1 = fs) ∧ ∃ data, fs' = { fs1 with data := data } := by
  unfold a1fsWrite at h
  rw [bind_eq_ok] at h
  obtain ⟨curInode, walk, h⟩ := h
  split at h
  · rename_i missing
    cases h
    exact .inl ⟨rfl, curInode, missing, walk⟩
  · obtain ⟨i, rfl, inside, h⟩ := inodeAt_bind_ok.mp h
    refine .inr ⟨i, walk, inside, ?_⟩
    rw [Int.toNat_natCast] at h
    dsimp only at h
    split at h
    · rename_i beyond
      rw [bind_eq_ok] at h
      obtain ⟨⟨fs1, t⟩, resize, h⟩ := h
      exact ⟨fs1, by rw [if_pos beyond]; exact ⟨t, resize⟩, writeResized_data h⟩
    · rename_i within
      rw [pure_bind] at h
      exact ⟨fs, by rw [if_neg within], writeResized_data h⟩

theorem a1fsWrite_resized (range : (fs.sb.sbFirstEmptyDb : Int) ≤ fs.sb.maxIndex)
    (h : a1fsWrite env fuel fs path buf offset = .ok (fs', r)) :
    fs' = fs ∨ ∃ i : Nat, getInodeNum fs path 0 = .ok (i : Int) ∧
      (i : Int) < fs.sb.sbInodesCount ∧
      (fs.Touches fs' i ∨ (offset + buf.length > (fs.itable i).size ∧
        Resized fs i (buf.length + offset : Nat) env.now fs')) := by
  rcases a1fsWrite_split h with ⟨same, -⟩ | ⟨i, walk, inside, fs1, resize, data, rfl⟩
  · exact .inl same
  · refine .inr ⟨i, walk, inside, ?_⟩
    split at resize
    · rename_i beyond
      obtain ⟨t, resize⟩ := resize
      obtain ⟨j, walk', -, resized⟩ := a1fsTruncate_resized range resize
      rw [walk] at walk'
      obtain rfl : i = j := by
        cases walk'
        rfl
      exact .inr ⟨beyond, resized.touch .setData⟩
    · subst resize
      exact .inl .setData

end Write

end ExtentFs
