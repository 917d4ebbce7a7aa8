import Mathlib.Order.Interval.Finset.Nat
import ExtentFs.Effects.Layout

namespace ExtentFs

open Base

def ClearRun (bitmap : Bitmap) (b n : Nat) : Prop := ∀ j ∈ List.range' b n, bitmap.test j = false

instance (bitmap : Bitmap) (b n : Nat) : Decidable (ClearRun bitmap b n) :=
  inferInstanceAs (Decidable (∀ j ∈ List.range' b n, bitmap.test j = false))

/-- The first run of `n` clear bits from `sb_first_empty_db` on. -/
structure FirstRun (sb : A1fsSuperblock) (bitmap : Bitmap) (n b : Nat) : Prop where
  clear : ClearRun bitmap b n
  inside : sb.sbFirstEmptyDb ≤ b
  least : ∀ b', sb.sbFirstEmptyDb ≤ b' → b' < b → ¬ ClearRun bitmap b' n

/-- The bits of the search range are there and set, and so is the one behind it, which the search does
    not read. -/
def Exhausted (sb : A1fsSuperblock) (bitmap : Bitmap) : Prop :=
  (∀ j : Nat, sb.sbFirstEmptyDb ≤ j → (j : Int) < sb.maxIndex →
    j / 8 < bitmap.length ∧ bitmap.test j = true) ∧ bitmap.test sb.maxIndex.toNat = true

/-- The search for `n` blocks succeeds exactly if `n` of the first `d` bits are clear in a row, and finds
    such ones. -/
def FindsInside (sb : A1fsSuperblock) (bitmap : Bitmap) (d n : Nat) : Prop :=
  ∃ r, getAvailableBit sb bitmap .data n = .ok r ∧
    (0 ≤ r ↔ ∃ b, b + n ≤ d ∧ ClearRun bitmap b n) ∧ (0 ≤ r → r + n ≤ d)

section Search

variable {sb : A1fsSuperblock} {bitmap : Bitmap} {b d n m : Nat} {r : Int}

theorem clearRun_iff : ClearRun bitmap b n ↔ ∀ j, b ≤ j → j < b + n → bitmap.test j = false := by
  simp only [ClearRun, List.mem_range'_1, and_imp]

theorem getAvailableBit_search (enough : (n : Int) ≤ sb.sbFreeBlocksCount) (limit : sb.maxIndex = m) :
    getAvailableBit sb bitmap .data n = .ok r ↔ ∃ avail i,
      firstFit bitmap n (m - sb.sbFirstEmptyDb) sb.sbFirstEmptyDb sb.sbFirstEmptyDb 0 = .ok (avail, i) ∧
        r = if i = m ∧ n ≠ 1 then -1 else (avail : Int) := by
  have room : (sb.maxIndex - (sb.sbFirstEmptyDb : Int)).toNat = m - sb.sbFirstEmptyDb := by omega
  rw [A1fsSuperblock.maxIndex] at room limit
  rw [getAvailableBit, if_neg (by omega)]
  dsimp only
  rw [room, limit, bind_eq_ok]
  constructor
  · rintro ⟨⟨avail, i⟩, search, answer⟩
    refine ⟨avail, i, search, ?_⟩
    dsimp only at answer
    by_cases stopped : i = m ∧ n ≠ 1
    · rw [if_pos (by omega)] at answer
      rw [if_pos stopped]
      exact (Except.ok.inj answer).symm
    · rw [if_neg (by omega)] at answer
      rw [if_neg stopped]
      exact (Except.ok.inj answer).symm
  · rintro ⟨avail, i, search, rfl⟩
    refine ⟨(avail, i), search, ?_⟩
    dsimp only
    by_cases stopped : i = m ∧ n ≠ 1
    · rw [if_pos (by omega), if_pos stopped]
    · rw [if_neg (by omega), if_neg stopped]

theorem getAvailableBit_first_run (some : 0 < n) (limit : sb.maxIndex = m) (range : sb.sbFirstEmptyDb ≤ m)
    (h : getAvailableBit sb bitmap .data n = .ok (b : Int)) :
    (FirstRun sb bitmap n b ∧ b + n ≤ m) ∨ (n = 1 ∧ b = m ∧ 1 ≤ sb.sbFreeBlocksCount ∧
      ∀ j : Nat, sb.sbFirstEmptyDb ≤ j → j < m → j / 8 < bitmap.length ∧ bitmap.test j = true) := by
  by_cases enough : (n : Int) ≤ sb.sbFreeBlocksCount
  · obtain ⟨avail, i, search, answer⟩ := (getAvailableBit_search enough limit).mp h
    obtain ⟨low, order, high, clear, stop⟩ := firstFit_spec search rfl fun j _ _ => by omega
    obtain ⟨short, read, least⟩ := firstFit_least search rfl (by omega)
    have least' (b' : Nat) (low' : sb.sbFirstEmptyDb ≤ b') (high' : b' < avail) : ¬ ClearRun bitmap b' n := by
      intro run
      obtain ⟨j, low, high, set⟩ := least b' low' high'
      rw [clearRun_iff.mp run j low high] at set
      cases set
    split at answer
    · omega
    · rename_i stopped
      obtain rfl : b = avail := by omega
      by_cases full : i = b + n
      · subst full
        exact .inl ⟨⟨clearRun_iff.mpr clear, low, least'⟩, by omega⟩
      · obtain rfl : n = 1 := by omega
        have empty : i = b := by omega
        have ended : b = m := by omega
        subst empty
        refine .inr ⟨rfl, ended, enough, fun j low' high' => ?_⟩
        have before : j < i := by omega
        refine ⟨read j low' before, ?_⟩
        have set := least' j low' before
        by_contra none
        refine set (clearRun_iff.mpr fun k first last => ?_)
        obtain rfl : k = j := by omega
        exact Bool.eq_false_of_not_eq_true none
  · have refused : getAvailableBit sb bitmap .data n = .ok (-1) := by
      rw [getAvailableBit, if_pos (by omega)]
    rw [refused] at h
    have minus := Except.ok.inj h
    omega

theorem ClearRun.card_le (run : ClearRun bitmap b n) (inside : b + n ≤ d) : n ≤ (bitmap.clear d).card := by
  have members : Finset.Ico b (b + n) ⊆ bitmap.clear d := by
    intro j member
    obtain ⟨low, high⟩ := Finset.mem_Ico.mp member
    exact Bitmap.mem_clear.mpr ⟨by omega, clearRun_iff.mp run j low high⟩
  calc n = (Finset.Ico b (b + n)).card := by rw [Nat.card_Ico]; omega
    _ ≤ (bitmap.clear d).card := Finset.card_le_card members

theorem clear_one (some : 0 < (bitmap.clear d).card) : ∃ b, b + 1 ≤ d ∧ ClearRun bitmap b 1 := by
  obtain ⟨b, member⟩ := Finset.card_pos.mp some
  obtain ⟨inside, bit⟩ := Bitmap.mem_clear.mp member
  refine ⟨b, inside, clearRun_iff.mpr fun j low high => ?_⟩
  obtain rfl : j = b := by omega
  exact bit

/-- A search that fails has read all bits of its range and has seen no run before the last one. -/
theorem getAvailableBit_fails (enough : (n : Int) ≤ sb.sbFreeBlocksCount) (limit : sb.maxIndex = m)
    (range : sb.sbFirstEmptyDb < m) (h : getAvailableBit sb bitmap .data n = .ok r) (failed : r < 0) :
    m ≤ 8 * bitmap.length ∧ ¬ ∃ b, sb.sbFirstEmptyDb ≤ b ∧ b + n < m ∧ ClearRun bitmap b n := by
  obtain ⟨avail, i, search, rfl⟩ := (getAvailableBit_search enough limit).mp h
  have stopped : i = m ∧ n ≠ 1 := by
    by_contra going
    rw [if_neg going] at failed
    omega
  obtain ⟨rfl, -⟩ := stopped
  obtain ⟨-, read, -⟩ := firstFit_least search rfl (by omega)
  have last := read (i - 1) (by omega) (by omega)
  refine ⟨by omega, ?_⟩
  rintro ⟨b, low, high, run⟩
  obtain ⟨avail', found, before⟩ : ∃ avail', firstFit bitmap n (i - sb.sbFirstEmptyDb) sb.sbFirstEmptyDb
      sb.sbFirstEmptyDb 0 = .ok (avail', avail' + n) ∧ avail' ≤ b :=
    firstFit_finds rfl (by omega) low (by omega) (fun j low high => read j low (by omega))
      (clearRun_iff.mp run)
  rw [found] at search
  have same := Except.ok.inj search
  have ends : avail' + n = i := congrArg Prod.snd same
  omega

theorem findsInside_iff (some : 0 < n) (limit : sb.maxIndex = m) (range : sb.sbFirstEmptyDb < m)
    (beyond : d < m) (counted : sb.sbFreeBlocksCount = (bitmap.clear d).card)
    (covered : d ≤ 8 * bitmap.length) :
    FindsInside sb bitmap d n ↔
      (∃ b, sb.sbFirstEmptyDb ≤ b ∧ b + n ≤ d ∧ ClearRun bitmap b n) ∨ (bitmap.clear d).card < n ∨
        (¬ ∃ b, b + n ≤ d ∧ ClearRun bitmap b n) ∧ m ≤ 8 * bitmap.length ∧
          ¬ ∃ b, sb.sbFirstEmptyDb ≤ b ∧ b + n < m ∧ ClearRun bitmap b n := by
  have refused (few : (bitmap.clear d).card < n) : getAvailableBit sb bitmap .data n = .ok (-1) := by
    rw [getAvailableBit, if_pos (by omega)]
  constructor
  · rintro ⟨r, returned, found, inside⟩
    by_cases few : (bitmap.clear d).card < n
    · exact .inr (.inl few)
    · by_cases run : ∃ b, sb.sbFirstEmptyDb ≤ b ∧ b + n ≤ d ∧ ClearRun bitmap b n
      · exact .inl run
      · have failed : r < 0 := by
          by_contra succeeded
          obtain ⟨b, rfl⟩ : ∃ b : Nat, r = b := ⟨r.toNat, by omega⟩
          have ends := inside (by omega)
          rcases getAvailableBit_first_run some limit (by omega) returned with ⟨first, -⟩ | ⟨-, last, -⟩
          · exact run ⟨b, first.inside, by omega, first.clear⟩
          · omega
        refine .inr (.inr ⟨fun there => ?_, getAvailableBit_fails (by omega) limit range returned failed⟩)
        have succeeded := found.mpr there
        omega
  · rintro (⟨b, low, high, run⟩ | few | ⟨none, covers, later⟩)
    · have enough := run.card_le high
      obtain ⟨avail, search, before⟩ : ∃ avail, firstFit bitmap n (m - sb.sbFirstEmptyDb)
          sb.sbFirstEmptyDb sb.sbFirstEmptyDb 0 = .ok (avail, avail + n) ∧ avail ≤ b :=
        firstFit_finds rfl (by omega) low (by omega) (fun j _ high => by omega) (clearRun_iff.mp run)
      have returned : getAvailableBit sb bitmap .data n = .ok (avail : Int) :=
        (getAvailableBit_search (by omega) limit).mpr
          ⟨avail, avail + n, search, (if_neg (by omega)).symm⟩
      exact ⟨avail, returned, ⟨fun _ => ⟨b, high, run⟩, fun _ => by omega⟩, fun _ => by omega⟩
    · refine ⟨-1, refused few, ⟨fun minus => by omega, ?_⟩, fun minus => by omega⟩
      rintro ⟨b, high, run⟩
      have enough := run.card_le high
      omega
    · by_cases few : (bitmap.clear d).card < n
      · exact ⟨-1, refused few, ⟨fun minus => by omega, fun run => (none run).elim⟩, fun minus => by omega⟩
      · have several : n ≠ 1 := by
          rintro rfl
          exact none (clear_one (by omega))
        obtain ⟨avail, i, search⟩ : ∃ avail i, firstFit bitmap n (m - sb.sbFirstEmptyDb)
            sb.sbFirstEmptyDb sb.sbFirstEmptyDb 0 = .ok (avail, i) :=
          firstFit_returns fun j low high => by omega
        obtain ⟨low, order, high, clear, stop⟩ := firstFit_spec search rfl fun j _ _ => by omega
        have stopped : i = m := by
          by_contra going
          have full : i = avail + n := by omega
          subst full
          exact later ⟨avail, low, by omega, clearRun_iff.mpr clear⟩
        have returned : getAvailableBit sb bitmap .data n = .ok (-1) :=
          (getAvailableBit_search (by omega) limit).mpr
            ⟨avail, i, search, (if_pos ⟨stopped, several⟩).symm⟩
        exact ⟨-1, returned, ⟨fun minus => by omega, fun run => (none run).elim⟩, fun minus => by omega⟩

end Search

/-- The search returns the first clear run except when it is for one block and there is none. -/
theorem first_run_iff {sb : A1fsSuperblock} {bitmap : Bitmap} {n : Nat} (some : 0 < n)
    (range : (sb.sbFirstEmptyDb : Int) < sb.maxIndex) :
    (∀ b : Nat, getAvailableBit sb bitmap .data n = .ok (b : Int) → FirstRun sb bitmap n b) ↔
      ¬ (n = 1 ∧ 1 ≤ sb.sbFreeBlocksCount ∧ Exhausted sb bitmap) := by
  obtain ⟨m, limit⟩ : ∃ m : Nat, sb.maxIndex = m := ⟨sb.maxIndex.toNat, by omega⟩
  have last : sb.maxIndex.toNat = m := by omega
  constructor
  · rintro right ⟨rfl, enough, full, beyond⟩
    rw [last] at beyond
    have read (j : Nat) (low : sb.sbFirstEmptyDb ≤ j)
        (high : j < sb.sbFirstEmptyDb + (m - sb.sbFirstEmptyDb)) : j / 8 < bitmap.length :=
      (full j low (by omega)).1
    obtain ⟨avail, i, search⟩ : ∃ avail i, firstFit bitmap (1 : Nat) (m - sb.sbFirstEmptyDb)
        sb.sbFirstEmptyDb sb.sbFirstEmptyDb 0 = .ok (avail, i) := firstFit_returns read
    have returned : getAvailableBit sb bitmap .data (1 : Nat) = .ok (avail : Int) :=
      (getAvailableBit_search enough limit).mpr
        ⟨avail, i, search, (if_neg fun both => both.2 rfl).symm⟩
    have found := right avail returned
    obtain ⟨low, order, high, -, -⟩ := firstFit_spec search rfl fun j _ _ => by omega
    have clear := clearRun_iff.mp found.clear avail (le_refl _) (by omega)
    by_cases inside : avail < m
    · rw [(full avail low (by omega)).2] at clear
      cases clear
    · obtain rfl : avail = m := by omega
      rw [beyond] at clear
      cases clear
  · intro usual b returned
    rcases getAvailableBit_first_run some limit (by omega) returned with found | ⟨one, rfl, enough, full⟩
    · exact found.1
    · refine ⟨clearRun_iff.mpr fun j low high => ?_, by omega, fun b' low high run => ?_⟩
      · obtain rfl : j = b := by omega
        by_contra set
        refine usual ⟨one, enough, fun j low high => full j low (by omega), ?_⟩
        rw [last]
        exact Bool.eq_true_of_not_eq_false set
      · have set := (full b' low high).2
        rw [clearRun_iff.mp run b' (le_refl _) (by omega)] at set
        cases set

/-- Bits 0 to 2, 4, 5 and 7 are set. -/
def usedBits : Bitmap := ⟨4096, fun k => if k = 0 then 0xb7#8 else 0#8⟩

theorem first_run_iff_device : getAvailableBit device.sb usedBits .data (3 : Nat) = .ok (8 : Nat) ∧
    FirstRun device.sb usedBits 3 8 := by
  have returned : getAvailableBit device.sb usedBits .data (3 : Nat) = .ok (8 : Nat) := by
    decide +kernel
  exact ⟨returned, (first_run_iff (by decide) (by decide)).mpr (fun one => absurd one.1 (by decide)) 8 returned⟩

/-- With no clear bit left, the block behind the search is returned. -/
theorem first_run_fails :
    let full : Bitmap := ⟨4096, fun _ => 255#8⟩
    (device.sb.sbFirstEmptyDb : Int) < device.sb.maxIndex ∧
      getAvailableBit device.sb full .data (1 : Nat) = .ok (15 : Nat) ∧ ¬ FirstRun device.sb full 1 15 := by
  refine ⟨by decide, by decide +kernel, fun first => ?_⟩
  exact absurd first.clear (by decide)

theorem first_empty_byte (image : Bytes) : (A1fsSuperblock.read image).sbFirstEmptyDb < 256 :=
  (image offFirstEmptyDb).isLt

section Formatted

variable {blocks nInodes d : Nat} {now : Timespec} {k : Int}

theorem formattedImage_free (room : 0 < blocksLeft blocks nInodes - k)
    (fits : blocksLeft blocks nInodes - k < 2 ^ 31) :
    (A1fsSuperblock.read (formattedImage blocks nInodes now k)).sbFreeBlocksCount =
      blocksLeft blocks nInodes - k := by
  rw [formattedImage, read_fillSuperblock]
  simp only
  generalize blocksLeft blocks nInodes - k = left at *
  rw [BitVec.toInt_ofInt, Int.bmod_def]
  split <;> omega

theorem formattedImage_maxIndex (bound : 4096 * blocks < 2 ^ 64) :
    (A1fsSuperblock.read (formattedImage blocks nInodes now k)).maxIndex = toInt blocks - 1 := by
  have quotient : 4096 * blocks / 4096 = blocks := by omega
  rw [formattedImage, read_fillSuperblock, A1fsSuperblock.maxIndex]
  simp only [BitVec.toNat_ofNat, Nat.mod_eq_of_lt bound, quotient]

theorem mkfs_search_range {image : Bytes} (bound : 4096 * blocks < 2 ^ 64) (pos : 0 < nInodes)
    (counted : nInodes ≤ 256 * (2 ^ 31 - 1))
    (made : mkfs (fun _ => 0) (4096 * blocks) nInodes now = .ok (some image))
    (data : (A1fsSuperblock.read image).sbFreeBlocksCount = d) :
    (d : Int) < (A1fsSuperblock.read image).maxIndex ∧
      ((A1fsSuperblock.read image).sbFirstEmptyDb : Int) < (A1fsSuperblock.read image).maxIndex := by
  obtain ⟨k, sizing, -, room, -, fits, rfl⟩ := mkfs_some pos (by omega) made
  have first := (sizeBitmap_ok sizing).1
  have left : blocksLeft blocks nInodes =
      toInt blocks - 1 - blocksFor nInodes 32768 - blocksFor nInodes 256 := rfl
  have table : 1 ≤ blocksFor nInodes 256 := by
    rw [blocksFor, toInt_of_fits]
    all_goals split <;> omega
  have bitmap : 1 ≤ blocksFor nInodes 32768 := by
    rw [blocksFor, toInt_of_fits]
    all_goals split <;> omega
  rw [formattedImage_free room fits] at data
  rw [formattedImage_maxIndex bound]
  refine ⟨by omega, ?_⟩
  by_cases lost : (uint8 (1 + blocksFor nInodes 32768 + k)).toNat = 0
  · -- The root inode is over the superblock: the number of the table block is a multiple of 256.
    have wraps := uint8_toNat (1 + blocksFor nInodes 32768 + k)
    have byte := first_empty_byte (formattedImage blocks nInodes now k)
    generalize (A1fsSuperblock.read (formattedImage blocks nInodes now k)).sbFirstEmptyDb = empty at *
    omega
  · rw [formattedImage_superblock blocks now lost]
    simp only [formattedSuperblock]
    omega

/-- The range of the search goes on behind the data blocks, so that it finds runs there. -/
theorem search_inside_iff {image : Bytes} {sb : A1fsSuperblock} {bitmap : Bitmap} {n : Nat}
    (bound : 4096 * blocks < 2 ^ 64) (pos : 0 < nInodes) (table : nInodes ≤ 256 * (2 ^ 31 - 1))
    (made : mkfs (fun _ => 0) (4096 * blocks) nInodes now = .ok (some image))
    (data : (A1fsSuperblock.read image).sbFreeBlocksCount = d)
    (size : sb.size = (A1fsSuperblock.read image).size)
    (first : sb.sbFirstEmptyDb = (A1fsSuperblock.read image).sbFirstEmptyDb)
    (counted : sb.sbFreeBlocksCount = (bitmap.clear d).card) (covered : d ≤ 8 * bitmap.length)
    (some : 0 < n) :
    FindsInside sb bitmap d n ↔
      (∃ b, sb.sbFirstEmptyDb ≤ b ∧ b + n ≤ d ∧ ClearRun bitmap b n) ∨ (bitmap.clear d).card < n ∨
        (¬ ∃ b, b + n ≤ d ∧ ClearRun bitmap b n) ∧ sb.maxIndex ≤ (8 * bitmap.length : Nat) ∧
          ¬ ∃ b : Nat, sb.sbFirstEmptyDb ≤ b ∧ ((b + n : Nat) : Int) < sb.maxIndex ∧ ClearRun bitmap b n := by
  obtain ⟨beyond, range⟩ := mkfs_search_range bound pos table made data
  have limit : sb.maxIndex = (A1fsSuperblock.read image).maxIndex := by
    rw [A1fsSuperblock.maxIndex, A1fsSuperblock.maxIndex, size]
  rw [← limit] at beyond range
  rw [← first] at range
  clear made data size first limit
  obtain ⟨m, last⟩ : ∃ m : Nat, sb.maxIndex = m := ⟨sb.maxIndex.toNat, by omega⟩
  rw [last] at beyond range
  rw [findsInside_iff some last (by omega) (by omega) counted covered, last]
  simp only [Int.ofNat_le, Int.ofNat_lt]

/-- All blocks of a device of 12 data blocks are in use but the fourth and the last. -/
def lastFree : Bitmap := ⟨4096, fun k => if k = 0 then 0xF7#8 else if k = 1 then 0x07#8 else 0#8⟩

theorem search_inside_iff_fourth :
    ∃ image, mkfs (fun _ => 0) (4096 * 16) 16 ⟨0, 0⟩ = .ok (some image) ∧
      FindsInside { A1fsSuperblock.read image with sbFreeBlocksCount := 2 } lastFree 12 1 := by
  have run : ∃ image, mkfs (fun _ => 0) (4096 * 16) 16 ⟨0, 0⟩ = .ok (some image) ∧
      (A1fsSuperblock.read image).sbFreeBlocksCount = 12 ∧ (A1fsSuperblock.read image).sbFirstEmptyDb = 0 := by
    decide +kernel
  obtain ⟨image, made, data, first⟩ := run
  have two : (lastFree.clear 12).card = 2 := by decide
  have counted : (2 : Int) = (lastFree.clear 12).card := by rw [two]; rfl
  have low : (A1fsSuperblock.read image).sbFirstEmptyDb ≤ 3 := by rw [first]; decide
  have exactly : FindsInside { A1fsSuperblock.read image with sbFreeBlocksCount := 2 } lastFree 12 1 ↔ _ :=
    search_inside_iff (by decide) (by decide) (by decide) made data rfl rfl counted (by decide) (by decide)
  exact ⟨image, made, exactly.mpr (.inl ⟨3, low, by decide, by decide⟩)⟩

/-- A run that starts in the last data block is returned. -/
theorem search_inside_fails :
    (lastFree.clear 12).card = 2 ∧ (∀ j, 12 ≤ j → lastFree.test j = false) ∧
      ∃ image, mkfs (fun _ => 0) (4096 * 16) 16 ⟨0, 0⟩ = .ok (some image) ∧
        (A1fsSuperblock.read image).sbFreeBlocksCount = 12 ∧
        ¬ FindsInside { A1fsSuperblock.read image with sbFreeBlocksCount := 2 } lastFree 12 2 := by
  refine ⟨by decide, fun j beyond => ?_, ?_⟩
  · rw [Bitmap.test_eq_getLsbD]
    by_cases second : j / 8 = 1
    · obtain ⟨i, low, high, rfl⟩ : ∃ i, 4 ≤ i ∧ i < 8 ∧ j = 8 + i := ⟨j - 8, by omega, by omega, by omega⟩
      have nibble : ∀ i < 8, 4 ≤ i → (0x07#8).getLsbD i = false := by decide
      have byte : (8 + i) / 8 = 1 := second
      have place : (8 + i) % 8 = i := by omega
      rw [byte, place]
      exact nibble i high low
    · have later : j / 8 ≠ 0 := by omega
      simp only [lastFree, if_neg second, if_neg later, BitVec.getLsbD_zero]
  · have run : ∃ image, mkfs (fun _ => 0) (4096 * 16) 16 ⟨0, 0⟩ = .ok (some image) ∧
        (A1fsSuperblock.read image).sbFreeBlocksCount = 12 ∧
        getAvailableBit { A1fsSuperblock.read image with sbFreeBlocksCount := 2 } lastFree .data (2 : Nat) =
          .ok 11 := by
      decide +kernel
    obtain ⟨image, made, data, returned⟩ := run
    refine ⟨image, made, data, ?_⟩
    rintro ⟨r, found, -, inside⟩
    obtain rfl : (11 : Int) = r := Except.ok.inj (returned.symm.trans found)
    have ends := inside (by decide)
    omega

end Formatted

end ExtentFs
