import ExtentFs.Guarantees.Ownership

namespace ExtentFs

open Base Base.Bytes

/-- The bytes to clear of the `b`-th of `left` blocks: all of it, or the leftover bytes of the last. -/
def passBytes (left leftover b : Nat) : Nat := if b + 1 = left ∧ leftover ≠ 0 then leftover else 4096

namespace FsCtx

/-- Each of the `n` blocks from `st` on has an offset that fits an int, and its first `bytes b` bytes
    lie in the image. -/
def Addressable (fs : FsCtx) (st n : Nat) (bytes : Nat → Nat) : Prop :=
  ∀ b < n, 4096 * (st + b) < 2 ^ 31 ∧ 4096 * (st + b) + bytes b ≤ fs.dataSize

/-- Zeroes the first `bytes b` bytes of each of the `n` blocks from `st` on. -/
structure ZeroesBlocks (fs fs' : FsCtx) (st n : Nat) (bytes : Nat → Nat) : Prop where
  zeroed : ∀ b < n, ∀ x < bytes b, fs'.data (4096 * (st + b) + x) = 0
  others : ∀ x, (∀ b < n, x < 4096 * (st + b) ∨ 4096 * (st + b) + bytes b ≤ x) →
    fs'.data x = fs.data x

end FsCtx

/-- The call of `zero_out_blocks` for the extent in slot `k` stops after `left` blocks or at the
    extent's last block, and has counted the blocks it has visited. -/
def ZeroesPass (fs : FsCtx) (i k st left leftover : Nat) : Prop :=
  let extent := (fs.itable i).iExtent k
  let visited := min left (extent.start + extent.count - st)
  ∃ fs', zeroOutBlocks i k leftover extent.count fs st left = .ok (fs', ((left - visited : Nat) : Int)) ∧
    fs.ZeroesBlocks fs' st visited (passBytes left leftover)

section Pass

variable {fs fs' : FsCtx} {i k st left leftover n r b x : Nat}

theorem passBytes_before (before : b + 1 < n) : passBytes n r b = 4096 := by
  rw [passBytes, if_neg (by omega)]

theorem zeroedBytes_last (some : 0 < n) :
    zeroedBytes n (r : Int) = 4096 * (n - 1) + passBytes n r (n - 1) := by
  have last : n - 1 + 1 = n := by omega
  by_cases whole : r = 0
  · simp [zeroedBytes, passBytes, whole]
  · simp [zeroedBytes, passBytes, whole, last]

theorem mem_zeroed (some : 0 < n) :
    (4096 * st ≤ x ∧ x < 4096 * st + zeroedBytes n (r : Int)) ↔
      ∃ b < n, 4096 * (st + b) ≤ x ∧ x < 4096 * (st + b) + passBytes n r b := by
  rw [zeroedBytes_last some]
  constructor
  · rintro ⟨low, high⟩
    by_cases last : 4096 * (st + (n - 1)) ≤ x
    · exact ⟨n - 1, by omega, last, by omega⟩
    · refine ⟨x / 4096 - st, by omega, by omega, ?_⟩
      rw [passBytes_before (by omega)]
      omega
  · rintro ⟨b, below, low, high⟩
    by_cases last : b = n - 1
    · subst last
      exact ⟨by omega, by omega⟩
    · rw [passBytes_before (by omega)] at high
      exact ⟨by omega, by omega⟩

theorem addressable_iff (some : 0 < n) : fs.Addressable st n (passBytes n r) ↔
    4096 * (st + (n - 1)) < 2 ^ 31 ∧ 4096 * st + zeroedBytes n (r : Int) ≤ fs.dataSize := by
  rw [zeroedBytes_last some]
  constructor
  · intro inside
    obtain ⟨offset, room⟩ := inside (n - 1) (by omega)
    exact ⟨offset, by omega⟩
  · rintro ⟨offset, room⟩ b below
    by_cases last : b = n - 1
    · subst last
      exact ⟨offset, by omega⟩
    · rw [passBytes_before (by omega)]
      exact ⟨by omega, by omega⟩

theorem zeroesBlocks_fill (some : 0 < n)
    (filled : fs'.data = fs.data.fill (4096 * st) (zeroedBytes n (r : Int)) 0) :
    fs.ZeroesBlocks fs' st n (passBytes n r) := by
  constructor
  · intro b below x inside
    obtain ⟨low, high⟩ := (mem_zeroed some).mpr
      ⟨b, below, Nat.le_add_right _ x, Nat.add_lt_add_left inside _⟩
    rw [filled, fill_inside low high]
  · intro x outside
    rw [filled, fill_outside]
    by_contra reached
    have inside : 4096 * st ≤ x ∧ x < 4096 * st + zeroedBytes n (r : Int) := by omega
    obtain ⟨b, below, low, high⟩ := (mem_zeroed some).mp inside
    have apart := outside b below
    omega

theorem zeroOutBlocks_visits (some : 0 < n) :
    (∃ fs', zeroOutBlocks i k (r : Int) n fs st n = .ok (fs', 0)) ↔ fs.Addressable st n (passBytes n r) := by
  rw [addressable_iff some]
  constructor
  · rintro ⟨fs', returned⟩
    obtain ⟨-, -, offset, room, -⟩ := zeroOutBlocks_exact some returned
    exact ⟨by omega, room⟩
  · rintro ⟨offset, room⟩
    exact zeroOutBlocks_returns some (by omega) (by omega) room

/-- The call has done what it should if it visits as many blocks as it should. -/
theorem zeroes_iff_visits {length visited : Nat} (some : 0 < n) (few : visited ≤ left)
    (call : ∀ fs' rest, zeroOutBlocks i k (leftover : Int) length fs st left = .ok (fs', rest) ↔
      zeroOutBlocks i k (r : Int) n fs st n = .ok (fs', 0) ∧ rest = left - n)
    (bytes : ∀ b < n, passBytes left leftover b = passBytes n r b) :
    (∃ fs', zeroOutBlocks i k (leftover : Int) length fs st left = .ok (fs', ((left - visited : Nat) : Int)) ∧
        fs.ZeroesBlocks fs' st visited (passBytes left leftover)) ↔
      n = visited ∧ fs.Addressable st visited (passBytes left leftover) := by
  constructor
  · rintro ⟨fs', returned, -⟩
    obtain ⟨zeroed, rest⟩ := (call _ _).mp returned
    obtain rfl : n = visited := by omega
    refine ⟨rfl, fun b below => ?_⟩
    rw [bytes b below]
    exact (zeroOutBlocks_visits some).mp ⟨fs', zeroed⟩ b below
  · rintro ⟨rfl, inside⟩
    have addressed : fs.Addressable st n (passBytes n r) := by
      intro b below
      rw [← bytes b below]
      exact inside b below
    obtain ⟨fs', zeroed⟩ := (zeroOutBlocks_visits (i := i) (k := k) some).mpr addressed
    obtain ⟨-, -, -, -, effect⟩ := zeroOutBlocks_exact some zeroed
    have blocks : fs.ZeroesBlocks fs' st n (passBytes n r) := zeroesBlocks_fill some (by rw [effect])
    refine ⟨fs', (call _ _).mpr ⟨zeroed, by omega⟩, ?_, ?_⟩
    · intro b below
      rw [bytes b below]
      exact blocks.zeroed b below
    · intro x outside
      refine blocks.others x fun b below => ?_
      rw [← bytes b below]
      exact outside b below

/-- The loop bound is right only for a start at the extent's first block, and the loop ends early
    only for a partial block. -/
theorem zeroes_pass_iff (inside : st ∈ ((fs.itable i).iExtent k).blocks) (some : 0 < left) :
    ZeroesPass fs i k st left leftover ↔
      (st = ((fs.itable i).iExtent k).start ∧
          (leftover = 0 → ((fs.itable i).iExtent k).count ≤ left) ∨
        leftover ≠ 0 ∧ left ≤ ((fs.itable i).iExtent k).start + ((fs.itable i).iExtent k).count - st) ∧
      fs.Addressable st (min left (((fs.itable i).iExtent k).start + ((fs.itable i).iExtent k).count - st))
        (passBytes left leftover) := by
  rw [ZeroesPass]
  obtain ⟨low, high⟩ := A1fsExtent.mem_blocks.mp inside
  generalize (fs.itable i).iExtent k = extent at *
  by_cases stops : leftover ≠ 0 ∧ left ≤ extent.count
  · have call (fs' : FsCtx) (rest : Int) :
        zeroOutBlocks i k (leftover : Int) extent.count fs st left = .ok (fs', rest) ↔
          zeroOutBlocks i k (leftover : Int) left fs st left = .ok (fs', 0) ∧ rest = (left : Int) - left := by
      rw [zeroOutBlocks_stop some (by omega) stops.2]
      constructor
      · intro returned
        obtain ⟨rfl, -⟩ := zeroOutBlocks_exact some returned
        exact ⟨returned, by omega⟩
      · rintro ⟨returned, rfl⟩
        rw [returned, Int.sub_self]
    rw [zeroes_iff_visits some (Nat.min_le_left _ _) call fun b below => rfl]
    refine and_congr_left fun _ => ?_
    omega
  · have whole : (leftover : Int) = 0 ∨ (extent.count : Int) < left := by omega
    have counted : 0 < extent.count := by omega
    have call (fs' : FsCtx) (rest : Int) :
        zeroOutBlocks i k (leftover : Int) extent.count fs st left = .ok (fs', rest) ↔
          zeroOutBlocks i k ((0 : Nat) : Int) extent.count fs st extent.count = .ok (fs', 0) ∧
            rest = (left : Int) - extent.count := by
      rw [zeroOutBlocks_whole whole, bind_eq_ok]
      constructor
      · rintro ⟨⟨zeroed, none⟩, returned, same⟩
        obtain ⟨rfl, -⟩ := zeroOutBlocks_exact counted returned
        cases same
        exact ⟨returned, rfl⟩
      · rintro ⟨returned, rfl⟩
        exact ⟨_, returned, rfl⟩
    have bytes (b : Nat) (below : b < extent.count) : passBytes left leftover b = passBytes extent.count 0 b := by
      rw [passBytes, passBytes, if_neg (by omega), if_neg (by omega)]
    rw [zeroes_iff_visits counted (Nat.min_le_left _ _) call bytes]
    refine and_congr_left fun _ => ?_
    omega

end Pass

theorem zeroes_pass_iff_partial : ∃ fs, takingRun = some fs ∧ ZeroesPass fs 1 0 1 2 100 := by
  have found : ∃ fs ∈ takingRun, ((fs.itable 1).iExtent 0).start = 1 ∧ ((fs.itable 1).iExtent 0).count = 2 ∧
      fs.dataSize = 49152 := by decide +kernel
  obtain ⟨fs, run, start, count, size⟩ := found
  have inside : 1 ∈ ((fs.itable 1).iExtent 0).blocks := by
    rw [A1fsExtent.mem_blocks]
    omega
  have bounds : ∀ b < 2, 4096 * (1 + b) < 2 ^ 31 ∧ 4096 * (1 + b) + passBytes 2 100 b ≤ 49152 := by decide
  refine ⟨fs, run, (zeroes_pass_iff inside (by decide)).mpr ⟨.inl ⟨start.symm, fun none => by omega⟩, ?_⟩⟩
  intro b below
  rw [size]
  exact bounds b (by omega)

/-- With one block to zero, the last of an extent of two, the call goes on behind the extent. -/
theorem zeroes_pass_fails :
    ∃ fs, a1fs.Reaches (fun fs event => Documented fs event.call) fs ∧
      ((fs.itable 1).iExtent 0).start = 1 ∧ ((fs.itable 1).iExtent 0).count = 2 ∧
      ¬ ZeroesPass fs 1 0 2 1 0 := by
  have found : ∃ fs ∈ takingRun, ((fs.itable 1).iExtent 0).start = 1 ∧ ((fs.itable 1).iExtent 0).count = 2 ∧
      ∃ zeroed, zeroOutBlocks 1 0 0 2 fs 2 1 = .ok zeroed ∧ zeroed.2 = -1 := by decide +kernel
  obtain ⟨fs, run, start, count, zeroed, returned, below⟩ := found
  refine ⟨fs, runCalls_reaches (.initial device_initial) run, start, count, ?_⟩
  rintro ⟨fs', passed, -⟩
  rw [count, Nat.cast_zero, Nat.cast_one, returned] at passed
  cases passed
  omega

end ExtentFs
