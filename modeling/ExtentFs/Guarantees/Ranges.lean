import ExtentFs.Effects.Bits
import ExtentFs.Model.Format

namespace ExtentFs

open Base

/-- What `set_bits` does to a range of data bits. -/
structure TogglesRange (sb : A1fsSuperblock) (bitmap : Bitmap) (index n flipType : Nat)
    (sb' : A1fsSuperblock) (bitmap' : Bitmap) : Prop where
  toggled : ∀ i, checkBitUsage bitmap' i ≠ checkBitUsage bitmap i ↔ index ≤ i ∧ i < index + n
  counted : sb' = { sb with sbFreeBlocksCount :=
    if flipType = 0 then sb.sbFreeBlocksCount + n else sb.sbFreeBlocksCount - n }

/-- Consecutive ranges of the given lengths. -/
def subranges (start : Nat) : List Nat → List (Nat × Nat)
  | [] => []
  | n :: rest => (start, n) :: subranges (start + n) rest

/-- The ranges are freed one after the other. -/
def freeRanges (sb : A1fsSuperblock) (bitmap : Bitmap) : List (Nat × Nat) → Checked (A1fsSuperblock × Bitmap)
  | [] => .ok (sb, bitmap)
  | (start, n) :: rest => do
    let (sb, bitmap) ← setBits sb bitmap start .data n 0
    freeRanges sb bitmap rest

section Ranges

variable {sb : A1fsSuperblock} {bitmap : Bitmap} {index n i flipType : Nat} {lengths : List Nat}
  {ranges : List (Nat × Nat)}

theorem subranges_bits : (subranges index lengths).flatMap (fun p => List.range' p.1 p.2) =
    List.range' index lengths.sum := by
  induction lengths generalizing index with
  | nil => rfl
  | cons n rest ih =>
    rw [subranges, List.flatMap_cons, ih, List.sum_cons]
    exact List.range'_append_1

theorem freeRanges_eq : freeRanges sb bitmap ranges =
    flipDataBits sb bitmap 0 (ranges.flatMap fun p => List.range' p.1 p.2) := by
  induction ranges generalizing sb bitmap with
  | nil => rfl
  | cons range rest ih =>
    rw [List.flatMap_cons, flipDataBits_append, freeRanges, setBits, Int.toNat_natCast]
    congr 1
    funext freed
    exact ih

theorem setBits_range (inside : index + n ≤ 8 * bitmap.length) (flipType : Nat) :
    setBits sb bitmap index .data n flipType = .ok
      ({ sb with sbFreeBlocksCount := countFlips flipType sb.sbFreeBlocksCount n },
        bitmap.flipAll (List.range' index n)) := by
  rw [setBits_data_ok, Int.toNat_natCast]
  refine ⟨fun j member => ?_, rfl, rfl⟩
  rw [List.mem_range'_1] at member
  omega

theorem checkBitUsage_flipped (inside : index + n ≤ 8 * bitmap.length) (low : index ≤ i) (high : i < index + n) :
    checkBitUsage (bitmap.flipAll (List.range' index n)) i = .ok (!bitmap.test i) := by
  have member : i ∈ List.range' index n := List.mem_range'_1.mpr ⟨low, high⟩
  have read : i / 8 < bitmap.length := by omega
  refine checkBitUsage_ok.mpr ⟨by rwa [Bitmap.flipAll_length], ?_⟩
  rw [Bitmap.test_flipAll List.nodup_range']
  simp [member]

theorem checkBitUsage_unflipped (outside : ¬ (index ≤ i ∧ i < index + n)) :
    checkBitUsage (bitmap.flipAll (List.range' index n)) i = checkBitUsage bitmap i := by
  have absent : i ∉ List.range' index n := fun member => outside (List.mem_range'_1.mp member)
  have same := Bitmap.test_flipAll_of_not_mem (m := bitmap) absent
  simp only [Bitmap.test, Bitmap.mask] at same
  rw [checkBitUsage, checkBitUsage, Bitmap.flipAll_length, same]

theorem togglesRange_flipAll (inside : index + n ≤ 8 * bitmap.length) :
    TogglesRange sb bitmap index n flipType
      { sb with sbFreeBlocksCount := countFlips flipType sb.sbFreeBlocksCount n }
      (bitmap.flipAll (List.range' index n)) := by
  refine ⟨fun i => ?_, rfl⟩
  by_cases member : index ≤ i ∧ i < index + n
  · have before : checkBitUsage bitmap i = .ok (bitmap.test i) := checkBitUsage_ok.mpr ⟨by omega, rfl⟩
    rw [checkBitUsage_flipped inside member.1 member.2, before]
    simp [member]
  · rw [checkBitUsage_unflipped member]
    simp [member]

/-- What was flipped bit by bit is flipped back by the ranges, in any order. -/
theorem freeRanges_flipAll (inside : index + n ≤ 8 * bitmap.length) (lengths : List Nat)
    (total : lengths.sum = n) (order : ranges.Perm (subranges index lengths)) :
    freeRanges { sb with sbFreeBlocksCount := countFlips 1 sb.sbFreeBlocksCount n }
      (bitmap.flipAll (List.range' index n)) ranges = .ok (sb, bitmap) := by
  have bits : (ranges.flatMap fun p => List.range' p.1 p.2).Perm (List.range' index n) := by
    rw [← total, ← subranges_bits]
    exact order.flatMap_right _
  rw [freeRanges_eq, flipDataBits_ok]
  refine ⟨fun j member => ?_, ?_, ?_⟩
  · have range := List.mem_range'_1.mp (bits.subset member)
    rw [Bitmap.flipAll_length]
    omega
  · rw [Bitmap.flipAll_perm bits, Bitmap.flipAll_flipAll]
  · have count : countFlips 0 (countFlips 1 sb.sbFreeBlocksCount n)
        (ranges.flatMap fun p => List.range' p.1 p.2).length = sb.sbFreeBlocksCount := by
      rw [bits.length_eq, List.length_range']
      simp [countFlips]
    rw [count]

/-- `set_bits` toggles exactly its range and counts it. What it marks in a range of clear bits is
    undone by freeing the range piece by piece, in any order. -/
theorem range_updates (inside : index + n ≤ 8 * bitmap.length) :
    (∀ flipType, ∃ sb' bitmap', setBits sb bitmap index .data n flipType = .ok (sb', bitmap') ∧
      TogglesRange sb bitmap index n flipType sb' bitmap') ∧
    ((∀ i, index ≤ i → i < index + n → checkBitUsage bitmap i = .ok false) →
      ∃ marked bits, setBits sb bitmap index .data n 1 = .ok (marked, bits) ∧
        (∀ i, checkBitUsage bits i =
          if index ≤ i ∧ i < index + n then .ok true else checkBitUsage bitmap i) ∧
        ∀ lengths ranges, lengths.sum = n → ranges.Perm (subranges index lengths) →
          freeRanges marked bits ranges = .ok (sb, bitmap)) := by
  constructor
  · intro flipType
    exact ⟨_, _, setBits_range inside flipType, togglesRange_flipAll inside⟩
  · intro clear
    refine ⟨_, _, setBits_range inside 1, fun i => ?_, fun lengths ranges total order => ?_⟩
    · by_cases member : index ≤ i ∧ i < index + n
      · obtain ⟨-, unused⟩ := checkBitUsage_ok.mp (clear i member.1 member.2)
        rw [checkBitUsage_flipped inside member.1 member.2, if_pos member, ← unused]
        rfl
      · rw [checkBitUsage_unflipped member, if_neg member]
    · exact freeRanges_flipAll inside lengths total order

/-- The bitmap of `set_bits CASE 1`. -/
def case1Bits : Bitmap := ⟨2, fun k => if k = 0 then 0x71#8 else 0x10#8⟩

theorem range_updates_case1 : ∃ marked bits,
    setBits (A1fsSuperblock.read fun _ => 0) case1Bits 7 .data 4 1 = .ok (marked, bits) ∧
      checkBitUsage bits 7 = .ok true ∧ checkBitUsage bits 11 = .ok false ∧
      freeRanges marked bits [(9, 2), (7, 2)] = .ok (A1fsSuperblock.read fun _ => 0, case1Bits) := by
  have free : ∀ k < 4, checkBitUsage case1Bits (7 + k) = .ok false := by decide
  have clear : ∀ i, 7 ≤ i → i < 7 + 4 → checkBitUsage case1Bits i = .ok false := by
    intro i low high
    obtain ⟨k, rfl⟩ := Nat.exists_eq_add_of_le low
    exact free k (by omega)
  have inside : 7 + 4 ≤ 8 * case1Bits.length := by decide
  obtain ⟨marked, bits, set, used, freed⟩ := (range_updates inside).2 clear
  refine ⟨marked, bits, set, by rw [used]; rfl, by rw [used]; rfl, ?_⟩
  exact freed [2, 2] _ rfl (List.Perm.swap _ _ _)

end Ranges

end ExtentFs
